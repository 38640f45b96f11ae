import CoreLisp.Expr.Builder
import CoreLisp.Proofs.Form.Reader

/-!
# All that the builder accepts

`Accepted` lists the forms that the builder turns into an expression, with what
it asks of their parts. The parts of a form are built by the same functions, so
a property of all built expressions is shown by induction on the form, going
through this list.
-/
namespace CoreLisp.Expr

open SyntaxError (bind_eq_ok_iff)

/-- The builder makes the expression of the form. -/
inductive Accepted : Form → Expr → Prop
  | ref {x : Name} : Accepted (.symbol x) (.ref x)
  | datum {word : Name} {forms : List Form} {e : Expr} :
      Keyword.ofText? word = some .datum → literal forms = .ok e →
      Accepted (.list (.symbol word :: forms)) e
  | letIn {word : Name} {bindings forms : List Form} {bound : List (Name × Expr)}
      {es : List Expr} {body : Expr} :
      Keyword.ofText? word = some .letIn → bindingsOf .letIn bindings = .ok bound →
      (bound.map (·.1)).Nodup → ofForms forms = .ok es →
      block (.keyword .letIn) es = .ok body →
      Accepted (.list (.symbol word :: .list bindings :: forms))
        (.letIn (bound.map (·.1)) (bound.map (·.2)) body)
  | letRec {word : Name} {bindings forms : List Form} {bound : List (Name × Expr)}
      {es : List Expr} {body : Expr} :
      Keyword.ofText? word = some .letRec → bindingsOf .letRec bindings = .ok bound →
      (bound.map (·.1)).Nodup → ofForms forms = .ok es →
      block (.keyword .letRec) es = .ok body → bound ≠ [] →
      Accepted (.list (.symbol word :: .list bindings :: forms))
        (.letRec (bound.map (·.1)) (bound.map (·.2)) body)
  | lambda {word : Name} {names forms : List Form} {params : List Name} {es : List Expr}
      {body : Expr} :
      Keyword.ofText? word = some .lambda → names.mapM (identifier .lambda) = .ok params →
      params.Nodup → ofForms forms = .ok es → block (.keyword .lambda) es = .ok body →
      Accepted (.list (.symbol word :: .list names :: forms)) (.lambda params body)
  | cond {word : Name} {test conseq alt : Form} {test' conseq' alt' : Expr} :
      Keyword.ofText? word = some .cond → ofForm test = .ok test' → ofForm conseq = .ok conseq' →
      ofForm alt = .ok alt' →
      Accepted (.list [.symbol word, test, conseq, alt]) (.cond test' conseq' alt')
  | assign {word : Name} {x : Name} {rhs : Form} {rhs' : Expr} :
      Keyword.ofText? word = some .assign → ofForm rhs = .ok rhs' →
      Accepted (.list [.symbol word, .symbol x, rhs]) (.assign x rhs')
  | begin {word : Name} {forms : List Form} {es : List Expr} {e : Expr} :
      Keyword.ofText? word = some .begin → ofForms forms = .ok es →
      block (.keyword .begin) es = .ok e → Accepted (.list (.symbol word :: forms)) e
  | app {word : Name} {rator : Form} {rands : List Form} {rator' : Expr} {rands' : List Expr} :
      Keyword.ofText? word = some .app → ofForm rator = .ok rator' → ofForms rands = .ok rands' →
      Accepted (.list (.symbol word :: rator :: rands)) (.app rator' rands')
  | primApp {word : Name} {x : Name} {rands : List Form} {rands' : List Expr} :
      Keyword.ofText? word = some .primApp → ofForms rands = .ok rands' →
      Accepted (.list (.symbol word :: .symbol x :: rands)) (.primApp x rands')

theorem distinct_eq_ok_iff {k : Keyword} {names : List Name} {u : Unit} :
    distinct k names = .ok u ↔ names.Nodup := by
  unfold distinct
  split <;> simp [*]

theorem identifier_eq_ok_iff {k : Keyword} {form : Form} {x : Name} :
    identifier k form = .ok x ↔ form = .symbol x := by
  cases form <;> simp [identifier]

/-- The constructs in the order of the definition: each accepts lists of one shape. -/
theorem accepted_of_keyword {k : Keyword} {word : Name} {parts : List Form} {e : Expr}
    (hword : Keyword.ofText? word = some k) (ok : ofForm (.list (.symbol word :: parts)) = .ok e) :
    Accepted (.list (.symbol word :: parts)) e := by
  unfold ofForm at ok
  rw [hword] at ok
  cases k with
  | datum => exact .datum hword ok
  | letIn =>
      match parts with
      | .list bindings :: forms =>
          obtain ⟨bound, hbound, ok⟩ := bind_eq_ok_iff.mp ok
          obtain ⟨u, hdistinct, ok⟩ := bind_eq_ok_iff.mp ok
          obtain ⟨es, hes, ok⟩ := bind_eq_ok_iff.mp ok
          obtain ⟨body, hbody, ok⟩ := bind_eq_ok_iff.mp ok
          cases ok
          exact .letIn hword hbound (distinct_eq_ok_iff.mp hdistinct) hes hbody
      | [] | .symbol _ :: _ | .integer _ :: _ | .boolean _ :: _ | .undefined :: _ => cases ok
  | letRec =>
      match parts with
      | .list bindings :: forms =>
          obtain ⟨bound, hbound, ok⟩ := bind_eq_ok_iff.mp ok
          obtain ⟨u, hdistinct, ok⟩ := bind_eq_ok_iff.mp ok
          obtain ⟨es, hes, ok⟩ := bind_eq_ok_iff.mp ok
          obtain ⟨body, hbody, ok⟩ := bind_eq_ok_iff.mp ok
          have hdistinct := distinct_eq_ok_iff.mp hdistinct
          cases bound with
          | nil => cases ok
          | cons first rest =>
              cases ok
              exact .letRec hword hbound hdistinct hes hbody nofun
      | [] | .symbol _ :: _ | .integer _ :: _ | .boolean _ :: _ | .undefined :: _ => cases ok
  | lambda =>
      match parts with
      | .list names :: forms =>
          obtain ⟨params, hparams, ok⟩ := bind_eq_ok_iff.mp ok
          obtain ⟨u, hdistinct, ok⟩ := bind_eq_ok_iff.mp ok
          obtain ⟨es, hes, ok⟩ := bind_eq_ok_iff.mp ok
          obtain ⟨body, hbody, ok⟩ := bind_eq_ok_iff.mp ok
          cases ok
          exact .lambda hword hparams (distinct_eq_ok_iff.mp hdistinct) hes hbody
      | [] | .symbol _ :: _ | .integer _ :: _ | .boolean _ :: _ | .undefined :: _ => cases ok
  | cond =>
      match parts with
      | [test, conseq, alt] =>
          obtain ⟨test', htest, ok⟩ := bind_eq_ok_iff.mp ok
          obtain ⟨conseq', hconseq, ok⟩ := bind_eq_ok_iff.mp ok
          obtain ⟨alt', halt, ok⟩ := bind_eq_ok_iff.mp ok
          cases ok
          exact .cond hword htest hconseq halt
      | [] | [_] | [_, _] | _ :: _ :: _ :: _ :: _ => cases ok
  | assign =>
      match parts with
      | [name, rhs] =>
          obtain ⟨x, hx, ok⟩ := bind_eq_ok_iff.mp ok
          obtain ⟨rhs', hrhs, ok⟩ := bind_eq_ok_iff.mp ok
          cases ok
          rw [identifier_eq_ok_iff.mp hx]
          exact .assign hword hrhs
      | [] | [_] | _ :: _ :: _ :: _ => cases ok
  | begin =>
      obtain ⟨es, hes, ok⟩ := bind_eq_ok_iff.mp ok
      exact .begin hword hes ok
  | app =>
      match parts with
      | rator :: rands =>
          obtain ⟨rator', hrator, ok⟩ := bind_eq_ok_iff.mp ok
          obtain ⟨rands', hrands, ok⟩ := bind_eq_ok_iff.mp ok
          cases ok
          exact .app hword hrator hrands
      | [] => cases ok
  | primApp =>
      match parts with
      | name :: rands =>
          obtain ⟨x, hx, ok⟩ := bind_eq_ok_iff.mp ok
          obtain ⟨rands', hrands, ok⟩ := bind_eq_ok_iff.mp ok
          cases ok
          rw [identifier_eq_ok_iff.mp hx]
          exact .primApp hword hrands
      | [] => cases ok

theorem ofForm_eq_ok_iff {form : Form} {e : Expr} : ofForm form = .ok e ↔ Accepted form e := by
  constructor
  · intro ok
    match form with
    | .symbol x =>
        cases ok
        exact .ref
    | .list (.symbol word :: parts) =>
        cases hword : Keyword.ofText? word with
        | none =>
            simp only [ofForm, hword] at ok
            cases ok
        | some k => exact accepted_of_keyword hword ok
    | .integer _ | .boolean _ | .undefined | .list [] => cases ok
    | .list (.integer _ :: _) | .list (.boolean _ :: _) | .list (.undefined :: _)
    | .list (.list _ :: _) => cases ok
  · intro accepted
    cases accepted with
    | ref => rfl
    | datum hword ok =>
        simp only [ofForm, hword]
        exact ok
    | letIn hword hbound hdistinct hes hbody | lambda hword hbound hdistinct hes hbody =>
        simp only [ofForm, hword]
        refine bind_eq_ok_iff.mpr ⟨_, hbound, bind_eq_ok_iff.mpr ⟨(), ?_, ?_⟩⟩
        · exact distinct_eq_ok_iff.mpr hdistinct
        · exact bind_eq_ok_iff.mpr ⟨_, hes, bind_eq_ok_iff.mpr ⟨_, hbody, rfl⟩⟩
    | letRec hword hbound hdistinct hes hbody hne =>
        simp only [ofForm, hword]
        refine bind_eq_ok_iff.mpr ⟨_, hbound, bind_eq_ok_iff.mpr ⟨(), ?_, ?_⟩⟩
        · exact distinct_eq_ok_iff.mpr hdistinct
        · refine bind_eq_ok_iff.mpr ⟨_, hes, bind_eq_ok_iff.mpr ⟨_, hbody, ?_⟩⟩
          rw [if_neg (by simpa using hne)]
          rfl
    | cond hword htest hconseq halt =>
        simp only [ofForm, hword, htest, hconseq, halt]
        rfl
    | assign hword hrhs =>
        simp only [ofForm, hword, identifier, hrhs]
        rfl
    | begin hword hes ok =>
        simp only [ofForm, hword, hes]
        exact ok
    | app hword hrator hrands =>
        simp only [ofForm, hword, hrator, hrands]
        rfl
    | primApp hword hrands =>
        simp only [ofForm, hword, identifier, hrands]
        rfl

end CoreLisp.Expr
