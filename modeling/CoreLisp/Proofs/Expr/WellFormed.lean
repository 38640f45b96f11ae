import CoreLisp.Proofs.Expr.Builder

/-!
# Well-formed expressions

What the builder asks of the lists of a construct is asked here of one node,
and an expression is well formed if it is so everywhere in it, inside the bodies
of procedures too. All that the builder accepts is well formed.
-/
namespace CoreLisp

open SyntaxError (bind_eq_ok_iff)

namespace Expr

/-- The expressions that stand directly inside an expression. -/
def parts : Expr → List Expr
  | letIn _ inits body | letRec _ inits body => inits ++ [body]
  | seq body => body
  | ref _ | datum _ => []
  | cond test conseq alt => [test, conseq, alt]
  | lambda _ body => [body]
  | app rator rands => rator :: rands
  | primApp _ rands => rands
  | assign _ rhs => [rhs]

/-- The property holds of an expression and of all expressions inside it. -/
inductive Everywhere (p : Expr → Prop) : Expr → Prop
  | node {e : Expr} : p e → (∀ part ∈ e.parts, Everywhere p part) → Everywhere p e

/-- The lists of a construct are as the machine expects them: names bound together
differ and there are as many initializers, a recursive binding binds something,
and a sequence has more than one element. -/
def Regular : Expr → Prop
  | letIn names inits _ => names.length = inits.length ∧ names.Nodup
  | letRec names inits _ => names.length = inits.length ∧ names.Nodup ∧ names ≠ []
  | seq body => 2 ≤ body.length
  | lambda params _ => params.Nodup
  | _ => True

abbrev WellFormed (e : Expr) : Prop := e.Everywhere Regular

variable {p : Expr → Prop} {e : Expr} {es : List Expr} {k : Keyword}

theorem Everywhere.self (he : e.Everywhere p) : p e := by
  cases he with
  | node here _ => exact here

theorem Everywhere.part {part : Expr} (he : e.Everywhere p) (mem : part ∈ e.parts) :
    part.Everywhere p := by
  cases he with
  | node _ inside => exact inside part mem

theorem Everywhere.imp {q : Expr → Prop} (he : e.Everywhere p) (weaker : ∀ e, p e → q e) :
    e.Everywhere q := by
  induction he with
  | node here _ ih => exact .node (weaker _ here) ih

theorem sizeOf_part {part : Expr} (mem : part ∈ e.parts) : sizeOf part < sizeOf e := by
  cases e with
  | letIn names inits body =>
      rw [letIn.sizeOf_spec]
      rcases List.mem_append.mp mem with mem | mem
      · have := List.sizeOf_lt_of_mem mem
        omega
      · rw [List.mem_singleton.mp mem]
        omega
  | letRec names inits body =>
      rw [letRec.sizeOf_spec]
      rcases List.mem_append.mp mem with mem | mem
      · have := List.sizeOf_lt_of_mem mem
        omega
      · rw [List.mem_singleton.mp mem]
        omega
  | seq body =>
      rw [seq.sizeOf_spec]
      have : sizeOf part < sizeOf body := List.sizeOf_lt_of_mem mem
      omega
  | primApp name rands =>
      rw [primApp.sizeOf_spec]
      have : sizeOf part < sizeOf rands := List.sizeOf_lt_of_mem mem
      omega
  | app rator rands =>
      rw [app.sizeOf_spec]
      rcases List.mem_cons.mp mem with rfl | mem
      · omega
      · have := List.sizeOf_lt_of_mem mem
        omega
  | cond test conseq alt =>
      rw [cond.sizeOf_spec]
      simp only [parts, List.mem_cons, List.not_mem_nil, or_false] at mem
      rcases mem with rfl | rfl | rfl <;> omega
  | lambda params body =>
      rw [lambda.sizeOf_spec, List.mem_singleton.mp mem]
      omega
  | assign name rhs =>
      rw [assign.sizeOf_spec, List.mem_singleton.mp mem]
      omega
  | ref | datum => cases mem

theorem everywhere_of_forall (all : ∀ e, p e) (e : Expr) : e.Everywhere p := by
  induction h : sizeOf e using Nat.strongRecOn generalizing e with
  | ind n ih => exact .node (all e) fun part mem => ih _ (h ▸ sizeOf_part mem) part rfl

theorem wellFormed_of_literal {forms : List Form} (ok : literal forms = .ok e) :
    e.WellFormed := by
  unfold literal at ok
  split at ok <;> cases ok <;> exact .node trivial nofun

theorem wellFormed_of_block {construct : Construct} (ok : block construct es = .ok e)
    (hes : ∀ x ∈ es, x.WellFormed) : e.WellFormed := by
  cases es with
  | nil => cases ok
  | cons first rest =>
      cases rest with
      | nil =>
          cases ok
          exact hes e List.mem_cons_self
      | cons second rest =>
          cases ok
          exact .node (by simp [Regular]) hes

theorem inits_and_body {bound : List (Name × Expr)} {body : Expr}
    (hbound : ∀ b ∈ bound, b.2.WellFormed) (hbody : body.WellFormed) :
    ∀ part ∈ bound.map (·.2) ++ [body], part.WellFormed := by
  intro part mem
  rcases List.mem_append.mp mem with mem | mem
  · obtain ⟨b, hb, rfl⟩ := List.mem_map.mp mem
    exact hbound b hb
  · rw [List.mem_singleton.mp mem]
    exact hbody

mutual

/-- Induction on the form: the parts that an accepted form is built of are
smaller. -/
theorem wellFormed_of_ofForm {form : Form} {e : Expr} (ok : ofForm form = .ok e) :
    e.WellFormed := by
  cases ofForm_eq_ok_iff.mp ok with
  | ref => exact .node trivial nofun
  | datum _ ok => exact wellFormed_of_literal ok
  | letIn _ hbound hdistinct hes hbody =>
      have hbody := wellFormed_of_block hbody (wellFormed_of_ofForms hes)
      have hinside := inits_and_body (wellFormed_of_bindingsOf hbound) hbody
      exact .node ⟨by simp, hdistinct⟩ hinside
  | letRec _ hbound hdistinct hes hbody hne =>
      have hbody := wellFormed_of_block hbody (wellFormed_of_ofForms hes)
      have hinside := inits_and_body (wellFormed_of_bindingsOf hbound) hbody
      exact .node ⟨by simp, hdistinct, by simpa using hne⟩ hinside
  | lambda _ _ hdistinct hes hbody =>
      have hbody := wellFormed_of_block hbody (wellFormed_of_ofForms hes)
      exact .node hdistinct (List.forall_mem_singleton.mpr hbody)
  | cond _ htest hconseq halt =>
      have htest := wellFormed_of_ofForm htest
      have hconseq := wellFormed_of_ofForm hconseq
      have halt := wellFormed_of_ofForm halt
      exact .node trivial (by simp [parts, htest, hconseq, halt])
  | assign _ hrhs =>
      exact .node trivial (List.forall_mem_singleton.mpr (wellFormed_of_ofForm hrhs))
  | begin _ hes ok => exact wellFormed_of_block ok (wellFormed_of_ofForms hes)
  | app _ hrator hrands =>
      have hrator := wellFormed_of_ofForm hrator
      exact .node trivial (List.forall_mem_cons.mpr ⟨hrator, wellFormed_of_ofForms hrands⟩)
  | primApp _ hrands => exact .node trivial (wellFormed_of_ofForms hrands)

theorem wellFormed_of_ofForms {forms : List Form} {es : List Expr} (ok : ofForms forms = .ok es) :
    ∀ e ∈ es, e.WellFormed := by
  match forms with
  | [] =>
      cases ok
      exact nofun
  | form :: forms =>
      unfold ofForms at ok
      obtain ⟨e, he, ok⟩ := bind_eq_ok_iff.mp ok
      obtain ⟨es, hes, ok⟩ := bind_eq_ok_iff.mp ok
      cases ok
      exact List.forall_mem_cons.mpr ⟨wellFormed_of_ofForm he, wellFormed_of_ofForms hes⟩

theorem wellFormed_of_bindingsOf {k : Keyword} {forms : List Form} {bound : List (Name × Expr)}
    (ok : bindingsOf k forms = .ok bound) : ∀ b ∈ bound, b.2.WellFormed := by
  match forms with
  | [] =>
      cases ok
      exact nofun
  | .list [name, init] :: rest =>
      unfold bindingsOf at ok
      obtain ⟨x, -, ok⟩ := bind_eq_ok_iff.mp ok
      obtain ⟨e, he, ok⟩ := bind_eq_ok_iff.mp ok
      obtain ⟨bs, hbs, ok⟩ := bind_eq_ok_iff.mp ok
      cases ok
      exact List.forall_mem_cons.mpr ⟨wellFormed_of_ofForm he, wellFormed_of_bindingsOf hbs⟩
  | .symbol _ :: _ | .integer _ :: _ | .boolean _ :: _ | .undefined :: _ => cases ok
  | .list [] :: _ | .list [_] :: _ | .list (_ :: _ :: _ :: _) :: _ => cases ok

end

theorem wellFormed_of_ofProgram {forms : List Form} (ok : ofProgram forms = .ok e) :
    e.WellFormed := by
  cases forms with
  | nil => cases ok
  | cons form forms =>
      obtain ⟨es, hes, ok⟩ := bind_eq_ok_iff.mp ok
      exact wellFormed_of_block ok (wellFormed_of_ofForms hes)

theorem wellFormed_of_parse {source : String} (ok : parse source = .ok e) : e.WellFormed := by
  obtain ⟨forms, -, ok⟩ := bind_eq_ok_iff.mp ok
  exact wellFormed_of_ofProgram ok

end Expr

end CoreLisp
