import CoreLisp.Proofs.Machine.Steps
import CoreLisp.Proofs.Primitive.Parallel

/-!
# The machine on two sides

Two states match when what is evaluated or returned does and the frames on the two
stacks do one by one. A step from matching states leads to matching states or fails on
both sides. There is one exception: where a `let` has become a call the right side
needs more steps before its stack is as high as the one on the left. From then on the
arguments of that call wait in the place of the initializers.
-/
namespace CoreLisp

open CoreLisp.Action

/-- Parts that are evaluated in one environment. -/
abbrev Expr.MatchAllAt (c : Change) (w : Sides) (env : Env) : List Expr → List Expr → Prop :=
  List.Forall₂ (Expr.MatchesAt c w env [] [])

/-- The frames wait for the same, with matching parts still to be evaluated and matching
values found so far. -/
inductive Kont.Matches (c : Change) (w : Sides) : Kont → Kont → Prop
  | halt (env : Env) : Matches c w (.halt env) (.halt env)
  | cond {env : Env} {conseq conseq' alt alt' : Expr} :
      conseq.MatchesAt c w env [] [] conseq' → alt.MatchesAt c w env [] [] alt' →
      Matches c w (.cond env conseq alt) (.cond env conseq' alt')
  | assign {env : Env} {x y : Name} : (Expr.ref x).MatchesAt c w env [] [] (.ref y) →
      Matches c w (.assign env x) (.assign env y)
  | letIn {env : Env} {names names' : List Name} {inits inits' : List Expr} {body body' : Expr}
      {values values' : List Value} : c.Binders names names' →
      Expr.MatchAllAt c w env inits inits' → body.MatchesAt c w env [names] [names'] body' →
      List.Forall₂ (Value.Matches c w) values values' →
      Matches c w (.letIn env names inits body values) (.letIn env names' inits' body' values')
  /-- The initializers on the left are the arguments on the right, where the procedure has
  been made before. -/
  | letCall {names : List Name} {inits inits' : List Expr} {body : Expr} {f : Closure}
      {values values' : List Value} : names.length = inits.length →
      values.length < inits.length → c.Binders names f.params →
      Expr.MatchAllAt c w f.env inits inits' →
      body.MatchesAt c w f.env [names] [f.params] f.body →
      List.Forall₂ (Value.Matches c w) values values' →
      Matches c w (.letIn f.env names inits body values)
        (.operand f.env inits' (.procedure f) values')
  | letRec {outer env : Env} {names names' : List Name} {inits inits' : List Expr}
      {body body' : Expr} {values values' : List Value} : names.length = names'.length →
      w.Enters outer names names' env → Expr.MatchAllAt c w env inits inits' →
      body.MatchesAt c w env [] [] body' → List.Forall₂ (Value.Matches c w) values values' →
      Matches c w (.letRec env names inits body values) (.letRec env names' inits' body' values')
  | seq {env : Env} {body body' : List Expr} {index : Nat} :
      Expr.MatchAllAt c w env body body' → Matches c w (.seq env body index) (.seq env body' index)
  | primApp {env : Env} {name : Name} {rands rands' : List Expr} {values values' : List Value} :
      Expr.MatchAllAt c w env rands rands' → List.Forall₂ (Value.Matches c w) values values' →
      Matches c w (.primApp env name rands values) (.primApp env name rands' values')
  | operator {env : Env} {rands rands' : List Expr} : Expr.MatchAllAt c w env rands rands' →
      Matches c w (.operator env rands) (.operator env rands')
  | operand {env : Env} {rands rands' : List Expr} {operator operator' : Value}
      {values values' : List Value} : Expr.MatchAllAt c w env rands rands' →
      operator.Matches c w operator' → List.Forall₂ (Value.Matches c w) values values' →
      Matches c w (.operand env rands operator values) (.operand env rands' operator' values')

def Stack.Matches (c : Change) (w : Sides) (stack stack' : Stack) : Prop :=
  List.Forall₂ (Kont.Matches c w) stack.frames stack'.frames

inductive State.Matches (c : Change) (w : Sides) : State → State → Prop
  | evaluating {e e' : Expr} {env : Env} {stack stack' : Stack} :
      e.MatchesAt c w env [] [] e' → stack.Matches c w stack' →
      Matches c w ⟨.evaluating e, env, stack⟩ ⟨.evaluating e', env, stack'⟩
  | returning {v v' : Value} {env env' : Env} {stack stack' : Stack} : v.Matches c w v' →
      stack.Matches c w stack' →
      Matches c w ⟨.returning v, env, stack⟩ ⟨.returning v', env', stack'⟩
  | halted {v v' : Value} {env env' : Env} {stack stack' : Stack} : v.Matches c w v' →
      stack.Matches c w stack' →
      Matches c w ⟨.halted v, env, stack⟩ ⟨.halted v', env', stack'⟩

/-- The expression is a `let` that binds something. -/
def Expr.isLet : Expr → Bool
  | .letIn _ (_ :: _) _ => true
  | _ => false

/-- The state is about to visit such a `let`. -/
def State.visitsLet (s : State) : Bool :=
  match s.control with
  | .evaluating e => e.isLet
  | _ => false

variable {c : Change} {w w' : Sides} {env env' : Env} {k k' : Kont} {stack stack' : Stack}
variable {e e' : Expr} {es es' : List Expr} {v v' : Value} {args args' : List Value}
variable {s s' : State} {name : Name}

/-- Parts that match one by one do so in an environment. -/
theorem Expr.matchesAt_all {inner inner' : List (List Name)} (henv : env < w.left.frames.size)
    (lengths : es.length = es'.length)
    (parts : ∀ {e e' : Expr}, (e, e') ∈ es.zip es' →
      e.Matches c (inner ++ w.left.scopes env) (inner' ++ w.right.scopes env) e') :
    List.Forall₂ (MatchesAt c w env inner inner') es es' :=
  List.forall₂_iff_zip.mpr ⟨lengths, fun mem => ⟨henv, parts mem⟩⟩

theorem Expr.MatchAllAt.mono (all : MatchAllAt c w env es es') (grows : w.Grows w') :
    MatchAllAt c w' env es es' :=
  all.imp fun _ _ he => he.mono grows

theorem matches_values_mono (hargs : List.Forall₂ (Value.Matches c w) args args')
    (grows : w.Grows w') : List.Forall₂ (Value.Matches c w') args args' :=
  hargs.imp fun _ _ hv => hv.mono grows

theorem Kont.Matches.mono (hk : k.Matches c w k') (grows : w.Grows w') : k.Matches c w' k' := by
  cases hk with
  | halt env => exact .halt env
  | cond conseq alt => exact .cond (conseq.mono grows) (alt.mono grows)
  | assign same => exact .assign (same.mono grows)
  | letIn binders inits body values =>
      exact .letIn binders (inits.mono grows) (body.mono grows) (matches_values_mono values grows)
  | letCall bound left binders inits body values =>
      exact .letCall bound left binders (inits.mono grows) (body.mono grows)
        (matches_values_mono values grows)
  | letRec lengths enters inits body values =>
      exact .letRec lengths (enters.mono grows) (inits.mono grows) (body.mono grows)
        (matches_values_mono values grows)
  | seq body => exact .seq (body.mono grows)
  | primApp rands values => exact .primApp (rands.mono grows) (matches_values_mono values grows)
  | operator rands => exact .operator (rands.mono grows)
  | operand rands operator values =>
      exact .operand (rands.mono grows) (operator.mono grows) (matches_values_mono values grows)

namespace Stack.Matches

theorem mono (hs : stack.Matches c w stack') (grows : w.Grows w') : stack.Matches c w' stack' :=
  List.Forall₂.imp (fun _ _ hk => hk.mono grows) hs

theorem push (hs : stack.Matches c w stack') (hk : k.Matches c w k') :
    (stack.push k).Matches c w (stack'.push k') :=
  .cons hk hs

theorem depth_eq (hs : stack.Matches c w stack') : stack.depth = stack'.depth := by
  rw [stack.depth_eq, stack'.depth_eq]
  exact List.Forall₂.length_eq hs

theorem pop? (hs : stack.Matches c w stack') :
    (stack.pop? = none ∧ stack'.pop? = none) ∨ ∃ k k' below below',
      stack.pop? = some (k, below) ∧ stack'.pop? = some (k', below') ∧
      k.Matches c w k' ∧ below.Matches c w below' := by
  obtain ⟨frames, _, rfl⟩ := stack
  obtain ⟨frames', _, rfl⟩ := stack'
  cases hs with
  | nil => exact .inl ⟨rfl, rfl⟩
  | cons hk rest => exact .inr ⟨_, _, _, _, rfl, rfl, hk, rest⟩

end Stack.Matches

theorem State.Matches.depth_eq (hs : s.Matches c w s') : s.stack.depth = s'.stack.depth := by
  cases hs with
  | evaluating _ hs | returning _ hs | halted _ hs => exact hs.depth_eq

theorem State.Matches.running (hs : s.Matches c w s') (running : s.Running) : s'.Running := by
  cases hs with
  | evaluating => exact running_evaluating
  | returning => exact running_returning
  | halted => exact absurd rfl (running _)

theorem State.Matches.halted_right (hs : s.Matches c w s') (hv : s.control = .halted v) :
    ∃ v', s'.control = .halted v' ∧ v.Matches c w v' := by
  cases hs with
  | evaluating | returning => cases hv
  | halted here _ =>
      cases hv
      exact ⟨_, rfl, here⟩

namespace Machine

/-- The next part is the same one on both sides, if there is one. -/
theorem getElem?_matches {α : Type} {R : α → α → Prop} {xs ys : List α}
    (all : List.Forall₂ R xs ys) (i : Nat) :
    (xs[i]? = none ∧ ys[i]? = none) ∨ ∃ x y, xs[i]? = some x ∧ ys[i]? = some y ∧ R x y := by
  induction all generalizing i with
  | nil => exact .inl ⟨rfl, rfl⟩
  | cons here _ ih =>
      cases i with
      | zero => exact .inr ⟨_, _, rfl, rfl, here⟩
      | succ i => exact ih i

/-- The names get their values in a new frame, and the body is evaluated there. -/
theorem parallel_enter {names names' : List Name} (inside : e.MatchesAt c w env [names] [names'] e')
    (binders : c.Binders names names') (hargs : List.Forall₂ (Value.Matches c w) args args')
    (hs : stack.Matches c w stack') :
    Parallel c w (State.Matches c)
      (do
        let inner ← Env.extend env names args
        return ⟨.evaluating e, inner, stack⟩)
      (do
        let inner ← Env.extend env names' args'
        return ⟨.evaluating e', inner, stack'⟩) := by
  refine (Env.parallel_extend inside.1 binders hargs).bind fun w' inner _ grows entered => ?_
  obtain ⟨rfl, enters⟩ := entered
  exact parallel_pure (.evaluating ((inside.mono grows).enter enters) (hs.mono grows))

/-- The next part is evaluated, if there is one. -/
theorem parallel_next {finish finish' : Action State} (all : Expr.MatchAllAt c w env es es')
    (i : Nat) (hs : stack.Matches c w stack') (waiting : i < es.length → k.Matches c w k')
    (last : es.length ≤ i → Parallel c w (State.Matches c) finish finish') :
    Parallel c w (State.Matches c)
      (match es[i]? with
        | some next => return ⟨.evaluating next, env, stack.push k⟩
        | none => finish)
      (match es'[i]? with
        | some next => return ⟨.evaluating next, env, stack'.push k'⟩
        | none => finish') := by
  rcases getElem?_matches all i with ⟨hl, hr⟩ | ⟨next, next', hl, hr, here⟩
  · simp only [hl, hr]
    exact last (List.getElem?_eq_none_iff.mp hl)
  · simp only [hl, hr]
    exact parallel_pure
      (.evaluating here (hs.push (waiting (List.getElem?_eq_some_iff.mp hl).1)))

theorem parallel_applyProcedure (hv : v.Matches c w v')
    (hargs : List.Forall₂ (Value.Matches c w) args args') (hs : stack.Matches c w stack') :
    Parallel c w (State.Matches c) (applyProcedure v args stack)
      (applyProcedure v' args' stack') := by
  cases hv with
  | @procedure f f' _ env params body =>
      simp only [applyProcedure, ← hargs.length_eq, ← params.length_eq, env]
      by_cases hlen : args.length = f.params.length
      · simp only [if_pos hlen]
        exact parallel_enter body params hargs hs
      · simp only [if_neg hlen]
        exact parallel_throw (.refl c _)
  | _ => exact parallel_throw (.refl c _)

theorem parallel_applyPrimitive (hargs : List.Forall₂ (Value.Matches c w) args args')
    (hs : stack.Matches c w stack') :
    Parallel c w (State.Matches c) (applyPrimitive .standard name args env stack)
      (applyPrimitive .standard name args' env' stack') :=
  (Table.parallel_standard hargs).bind fun _ _ _ grows hv =>
    parallel_pure (.returning hv (hs.mono grows))

theorem matches_values_snoc (hargs : List.Forall₂ (Value.Matches c w) args args')
    (hv : v.Matches c w v') : List.Forall₂ (Value.Matches c w) (args ++ [v]) (args' ++ [v']) :=
  List.rel_append hargs (.cons hv .nil)

theorem matches_undefined {names names' : List Name} (lengths : names.length = names'.length) :
    List.Forall₂ (Value.Matches c w) (names.map fun _ => .undefined)
      (names'.map fun _ => .undefined) := by
  refine List.forall₂_map_left_iff.mpr (List.forall₂_map_right_iff.mpr ?_)
  exact List.forall₂_iff_zip.mpr ⟨lengths, fun _ => .undefined⟩

/-- The names of a frame with their new values. -/
theorem matches_bindings {outer : Env} {names names' : List Name}
    (lengths : names.length = names'.length) (enters : w.Enters outer names names' env)
    (hargs : List.Forall₂ (Value.Matches c w) args args') :
    List.Forall₂ (fun b b' => (Expr.ref b.1).MatchesAt c w env [] [] (.ref b'.1) ∧
      b.2.Matches c w b'.2) (names.zip args) (names'.zip args') := by
  refine (forall₂_zip lengths hargs).imp fun b b' hb => ⟨?_, hb.2⟩
  obtain ⟨-, f, hf, -⟩ := enters.1
  refine ⟨(Array.getElem?_eq_some_iff.mp hf).1, .ref ?_⟩
  rw [List.nil_append, List.nil_append, enters.1.scopes, enters.2.scopes]
  exact .here hb.1

/-- Until a let is met that has become a call, both sides begin alike. -/
theorem parallel_visit (he : e.MatchesAt c w env [] [] e') (hs : stack.Matches c w stack')
    (alike : c = .lets → e.isLet = false) :
    Parallel c w (State.Matches c) (visit .standard e env stack)
      (visit .standard e' env stack') := by
  obtain ⟨henv, he⟩ := he
  cases he with
  | datum d => exact parallel_pure (.returning d.matches_value hs)
  | ref same =>
      exact (Env.parallel_lookup ⟨henv, .ref same⟩).bind fun _ _ _ grows hv =>
        parallel_pure (.returning hv (hs.mono grows))
  | lambda binders body =>
      exact (Closure.parallel_new ⟨henv, .lambda binders body⟩).bind fun _ _ _ grows hf =>
        parallel_pure (.returning hf (hs.mono grows))
  | cond test conseq alt =>
      exact parallel_pure
        (.evaluating ⟨henv, test⟩ (hs.push (.cond ⟨henv, conseq⟩ ⟨henv, alt⟩)))
  | assign same rhs =>
      exact parallel_pure (.evaluating ⟨henv, rhs⟩ (hs.push (.assign ⟨henv, .ref same⟩)))
  | @seq _ _ es es' lengths parts =>
      have all : Expr.MatchAllAt c w env es es' := Expr.matchesAt_all henv lengths parts
      cases all with
      | nil => exact parallel_throw (.refl c _)
      | cons first rest =>
          cases rest with
          | nil => exact parallel_pure (.evaluating first hs)
          | cons second rest =>
              exact parallel_pure
                (.evaluating first (hs.push (.seq (.cons first (.cons second rest)))))
  | letNone body => exact parallel_pure (.evaluating ⟨henv, body⟩ hs)
  | @letIn _ _ names names' inits inits' body body' _ some binders lengths parts inner =>
      have all : Expr.MatchAllAt c w env inits inits' := Expr.matchesAt_all henv lengths parts
      simp only [visit, ← binders.length_eq, ← lengths]
      by_cases hlen : names.length = inits.length
      · simp only [if_neg (not_not.mpr hlen)]
        cases all with
        | nil => exact absurd rfl some
        | cons first rest =>
            exact parallel_pure (.evaluating first
              (hs.push (.letIn binders (.cons first rest) ⟨henv, inner⟩ .nil)))
      · simp only [if_pos hlen]
        exact parallel_throw (.refl c _)
  | @letCall _ _ names names' inits inits' body body' hc some =>
      cases inits with
      | nil => exact absurd rfl some
      | cons => cases alike hc
  | @letRec _ _ names names' inits inits' body body' binders lengths parts inner =>
      have all : List.Forall₂ (Expr.MatchesAt c w env [names] [names']) inits inits' :=
        Expr.matchesAt_all henv lengths parts
      have body : body.MatchesAt c w env [names] [names'] body' := ⟨henv, inner⟩
      simp only [visit, ← binders.length_eq, ← lengths]
      by_cases hlen : names.length = inits.length
      · simp only [if_neg (not_not.mpr hlen)]
        cases all with
        | nil => exact parallel_throw (.refl c _)
        | @cons first first' rest rest' here later =>
            refine (Env.parallel_extend henv binders (matches_undefined binders.length_eq)).bind
              fun w' _ place grows entered => ?_
            obtain ⟨rfl, enters⟩ := entered
            have all : Expr.MatchAllAt c w' place (first :: rest) (first' :: rest') :=
              (List.Forall₂.cons here later).imp fun _ _ he => (he.mono grows).enter enters
            exact parallel_pure (.evaluating (List.forall₂_cons.mp all).1 ((hs.mono grows).push
              (.letRec binders.length_eq enters all ((body.mono grows).enter enters) .nil)))
      · simp only [if_pos hlen]
        exact parallel_throw (.refl c _)
  | @primApp _ _ name rands rands' lengths parts =>
      have all : Expr.MatchAllAt c w env rands rands' := Expr.matchesAt_all henv lengths parts
      cases all with
      | nil => exact parallel_applyPrimitive .nil hs
      | cons first rest =>
          exact parallel_pure (.evaluating first (hs.push (.primApp (.cons first rest) .nil)))
  | @app _ _ rator rator' rands rands' hrator lengths parts =>
      have all : Expr.MatchAllAt c w env rands rands' := Expr.matchesAt_all henv lengths parts
      exact parallel_pure (.evaluating ⟨henv, hrator⟩ (hs.push (.operator all)))

theorem parallel_resume (hk : k.Matches c w k') (hv : v.Matches c w v')
    (hs : stack.Matches c w stack') :
    Parallel c w (State.Matches c) (resume .standard k v stack)
      (resume .standard k' v' stack') := by
  cases hk with
  | halt env => exact parallel_pure (.halted hv hs)
  | cond conseq alt =>
      simp only [resume, ← hv.isTruthy]
      cases v.isTruthy with
      | true => exact parallel_pure (.evaluating conseq hs)
      | false => exact parallel_pure (.evaluating alt hs)
  | assign same =>
      exact (Env.parallel_assign same hv).bind fun _ _ _ grows _ =>
        parallel_pure (.returning .unit (hs.mono grows))
  | @seq env body body' index all =>
      simp only [resume, ← all.length_eq]
      rcases getElem?_matches all index with ⟨hl, hr⟩ | ⟨next, next', hl, hr, here⟩
      · simp only [hl, hr]
        exact parallel_pure (.returning hv hs)
      · simp only [hl, hr]
        by_cases hlt : index + 1 < body.length
        · simp only [if_pos hlt]
          exact parallel_pure (.evaluating here (hs.push (.seq all)))
        · simp only [if_neg hlt]
          exact parallel_pure (.evaluating here hs)
  | letIn binders all inside hvalues =>
      have more := matches_values_snoc hvalues hv
      simp only [resume, ← hvalues.length_eq]
      exact parallel_next all _ hs (fun _ => .letIn binders all inside more) fun _ =>
        parallel_enter inside binders more hs
  | @letCall names inits inits' body f values values' bound left binders all inside hvalues =>
      have more := matches_values_snoc hvalues hv
      simp only [resume, ← hvalues.length_eq]
      refine parallel_next all _ hs (fun next => ?_) fun last => ?_
      · refine .letCall bound ?_ binders all inside more
        rwa [List.length_append, List.length_singleton]
      · -- as many arguments as names, so the call does what the let does
        have hlen : (values' ++ [v']).length = f.params.length := by
          rw [← more.length_eq, ← binders.length_eq, bound, List.length_append,
            List.length_singleton]
          omega
        simp only [applyProcedure, if_pos hlen]
        exact parallel_enter inside binders more hs
  | letRec lengths enters all inside hvalues =>
      have more := matches_values_snoc hvalues hv
      simp only [resume, ← hvalues.length_eq]
      exact parallel_next all _ hs (fun _ => .letRec lengths enters all inside more) fun _ =>
        (Env.parallel_assignAll (matches_bindings lengths enters more)).bind fun _ _ _ grows _ =>
          parallel_pure (.evaluating (inside.mono grows) (hs.mono grows))
  | primApp all hvalues =>
      have more := matches_values_snoc hvalues hv
      simp only [resume, ← hvalues.length_eq]
      exact parallel_next all _ hs (fun _ => .primApp all more) fun _ =>
        parallel_applyPrimitive more hs
  | operator all =>
      cases all with
      | nil => exact parallel_applyProcedure hv .nil hs
      | cons first rest =>
          exact parallel_pure (.evaluating first (hs.push (.operand (.cons first rest) hv .nil)))
  | operand all hoperator hvalues =>
      have more := matches_values_snoc hvalues hv
      simp only [resume, ← hvalues.length_eq]
      exact parallel_next all _ hs (fun _ => .operand all hoperator more) fun _ =>
        parallel_applyProcedure hoperator more hs

theorem parallel_step (hs : s.Matches c w s') (alike : c = .lets → s.visitsLet = false) :
    Parallel c w (State.Matches c) (step .standard s) (step .standard s') := by
  cases hs with
  | evaluating he hs => exact parallel_visit he hs alike
  | returning hv hs =>
      rcases hs.pop? with ⟨hl, hr⟩ | ⟨k, k', below, below', hl, hr, hk, rest⟩
      · simp only [step, hl, hr]
        exact parallel_throw (.refl c _)
      · simp only [step, hl, hr]
        exact parallel_resume hk hv rest
  | halted hv hs => exact parallel_pure (.halted hv hs)

/-- Matching programs start in matching states. -/
theorem matches_initial (he : e.Matches c [[]] [[]] e') :
    (State.initial e ({} : Heap).newRoot.1).Matches c .start
      (State.initial e' ({} : Heap).newRoot.1) :=
  .evaluating he.start (.cons (.halt _) .nil)

end Machine

end CoreLisp
