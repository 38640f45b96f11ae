import CoreLisp.Proofs.Expr.WellFormed
import Mathlib.Data.List.Forall2

/-!
# Expressions that differ in names or in their lets

Two ways to change a program without changing what it does: to rename what it binds,
and to write each `let` as the call of a procedure. Either is followed part by part by
one relation between expressions, which also keeps the scopes on both sides, innermost
first. A variable on one side stands for that on the other when both are bound at the
same place of the same scope; those that are not bound must be equal.
-/
namespace CoreLisp

/-- What two expressions differ in. -/
inductive Change where
  | names
  | lets

/-- The names bound together on both sides. Those of one side differ from each other. -/
def Change.Binders : Change → List Name → List Name → Prop
  | names, xs, ys => xs.length = ys.length ∧ xs.Nodup ∧ ys.Nodup
  | lets, xs, ys => xs = ys ∧ xs.Nodup

namespace Change.Binders

variable {c : Change} {xs ys : List Name}

theorem length_eq (binders : c.Binders xs ys) : xs.length = ys.length := by
  cases c with
  | names => exact binders.1
  | lets => exact congrArg _ binders.1

theorem left (binders : c.Binders xs ys) : xs.Nodup := by
  cases c with
  | names => exact binders.2.1
  | lets => exact binders.2

theorem right (binders : c.Binders xs ys) : ys.Nodup := by
  cases c with
  | names => exact binders.2.2
  | lets => exact binders.1 ▸ binders.2

end Change.Binders

/-- The variables are the same but for their names. A scope that binds neither is passed
over on both sides. -/
inductive SameVariable : List (List Name) → List (List Name) → Name → Name → Prop
  | free (x : Name) : SameVariable [] [] x x
  | here {scopes scopes' : List (List Name)} {names names' : List Name} {x y : Name} :
      (x, y) ∈ names.zip names' → SameVariable (names :: scopes) (names' :: scopes') x y
  | outer {scopes scopes' : List (List Name)} {names names' : List Name} {x y : Name} :
      x ∉ names → y ∉ names' → SameVariable scopes scopes' x y →
      SameVariable (names :: scopes) (names' :: scopes') x y

theorem SameVariable.refl (scopes : List (List Name)) (x : Name) :
    SameVariable scopes scopes x x := by
  induction scopes with
  | nil => exact .free x
  | cons names scopes ih =>
      by_cases hx : x ∈ names
      · refine .here ?_
        rw [List.zip, List.zipWith_self]
        exact List.mem_map_of_mem hx
      · exact .outer hx hx ih

namespace Expr

variable {c : Change} {scopes : List (List Name)} {e : Expr}

/-- The expressions differ in nothing but what the change is about. The names of a `let`
are in scope in its body, those of a `letrec` in its initializers too. -/
inductive Matches (c : Change) : List (List Name) → List (List Name) → Expr → Expr → Prop
  | datum {scopes scopes' : List (List Name)} (d : Datum) :
      Matches c scopes scopes' (.datum d) (.datum d)
  | ref {scopes scopes' : List (List Name)} {x y : Name} : SameVariable scopes scopes' x y →
      Matches c scopes scopes' (.ref x) (.ref y)
  | assign {scopes scopes' : List (List Name)} {x y : Name} {rhs rhs' : Expr} :
      SameVariable scopes scopes' x y → Matches c scopes scopes' rhs rhs' →
      Matches c scopes scopes' (.assign x rhs) (.assign y rhs')
  | lambda {scopes scopes' : List (List Name)} {params params' : List Name}
      {body body' : Expr} : c.Binders params params' →
      Matches c (params :: scopes) (params' :: scopes') body body' →
      Matches c scopes scopes' (.lambda params body) (.lambda params' body')
  | cond {scopes scopes' : List (List Name)} {test test' conseq conseq' alt alt' : Expr} :
      Matches c scopes scopes' test test' → Matches c scopes scopes' conseq conseq' →
      Matches c scopes scopes' alt alt' →
      Matches c scopes scopes' (.cond test conseq alt) (.cond test' conseq' alt')
  | seq {scopes scopes' : List (List Name)} {es es' : List Expr} : es.length = es'.length →
      (∀ {e e' : Expr}, (e, e') ∈ es.zip es' → Matches c scopes scopes' e e') →
      Matches c scopes scopes' (.seq es) (.seq es')
  | letNone {scopes scopes' : List (List Name)} {body body' : Expr} :
      Matches c scopes scopes' body body' →
      Matches c scopes scopes' (.letIn [] [] body) (.letIn [] [] body')
  | letIn {scopes scopes' : List (List Name)} {names names' : List Name}
      {inits inits' : List Expr} {body body' : Expr} : c = .names → inits ≠ [] →
      c.Binders names names' → inits.length = inits'.length →
      (∀ {e e' : Expr}, (e, e') ∈ inits.zip inits' → Matches c scopes scopes' e e') →
      Matches c (names :: scopes) (names' :: scopes') body body' →
      Matches c scopes scopes' (.letIn names inits body) (.letIn names' inits' body')
  | letCall {scopes scopes' : List (List Name)} {names names' : List Name}
      {inits inits' : List Expr} {body body' : Expr} : c = .lets → inits ≠ [] →
      names.length = inits.length → c.Binders names names' → inits.length = inits'.length →
      (∀ {e e' : Expr}, (e, e') ∈ inits.zip inits' → Matches c scopes scopes' e e') →
      Matches c (names :: scopes) (names' :: scopes') body body' →
      Matches c scopes scopes' (.letIn names inits body) (.app (.lambda names' body') inits')
  | letRec {scopes scopes' : List (List Name)} {names names' : List Name}
      {inits inits' : List Expr} {body body' : Expr} : c.Binders names names' →
      inits.length = inits'.length →
      (∀ {e e' : Expr}, (e, e') ∈ inits.zip inits' →
        Matches c (names :: scopes) (names' :: scopes') e e') →
      Matches c (names :: scopes) (names' :: scopes') body body' →
      Matches c scopes scopes' (.letRec names inits body) (.letRec names' inits' body')
  | primApp {scopes scopes' : List (List Name)} {name : Name} {rands rands' : List Expr} :
      rands.length = rands'.length →
      (∀ {e e' : Expr}, (e, e') ∈ rands.zip rands' → Matches c scopes scopes' e e') →
      Matches c scopes scopes' (.primApp name rands) (.primApp name rands')
  | app {scopes scopes' : List (List Name)} {rator rator' : Expr} {rands rands' : List Expr} :
      Matches c scopes scopes' rator rator' → rands.length = rands'.length →
      (∀ {e e' : Expr}, (e, e') ∈ rands.zip rands' → Matches c scopes scopes' e e') →
      Matches c scopes scopes' (.app rator rands) (.app rator' rands')

/-- The programs differ in the names that they bind and in nothing else, and no variable
is captured. Around a program is the root, which binds nothing. -/
def AlphaEquiv (e e' : Expr) : Prop := Matches .names [[]] [[]] e e'

mutual

/-- Each `let` that binds something, also inside a procedure, becomes the call of a
procedure that has the names as parameters. -/
def letsAsCalls : Expr → Expr
  | letIn names [] body => letIn names [] body.letsAsCalls
  | letIn names (first :: rest) body =>
      app (lambda names body.letsAsCalls) (allLetsAsCalls (first :: rest))
  | letRec names inits body => letRec names (allLetsAsCalls inits) body.letsAsCalls
  | seq body => seq (allLetsAsCalls body)
  | ref x => ref x
  | datum d => datum d
  | cond test conseq alt => cond test.letsAsCalls conseq.letsAsCalls alt.letsAsCalls
  | lambda params body => lambda params body.letsAsCalls
  | app rator rands => app rator.letsAsCalls (allLetsAsCalls rands)
  | primApp name rands => primApp name (allLetsAsCalls rands)
  | assign x rhs => assign x rhs.letsAsCalls

def allLetsAsCalls : List Expr → List Expr
  | [] => []
  | e :: es => e.letsAsCalls :: allLetsAsCalls es

end

theorem allLetsAsCalls_eq_map (es : List Expr) : allLetsAsCalls es = es.map letsAsCalls := by
  induction es with
  | nil => rfl
  | cons e es ih => rw [allLetsAsCalls, ih, List.map_cons]

theorem matches_all {es : List Expr} {f : Expr → Expr}
    (hes : ∀ e ∈ es, e.Matches c scopes scopes (f e)) :
    es.length = (es.map f).length ∧
      ∀ {e e' : Expr}, (e, e') ∈ es.zip (es.map f) → e.Matches c scopes scopes e' :=
  List.forall₂_iff_zip.mp (List.forall₂_map_right_iff.mpr (List.forall₂_same.mpr hes))

/-- Induction on the expression, of which all parts are well formed. -/
theorem matches_letsAsCalls (he : e.WellFormed) (scopes : List (List Name)) :
    e.Matches .lets scopes scopes e.letsAsCalls := by
  induction he generalizing scopes with
  | @node e here inside ih =>
      cases e with
      | datum d => exact .datum d
      | ref x => exact .ref (.refl scopes x)
      | assign x rhs => exact .assign (.refl scopes x) (ih rhs List.mem_cons_self scopes)
      | lambda params body =>
          exact .lambda ⟨rfl, here⟩ (ih body List.mem_cons_self (params :: scopes))
      | cond test conseq alt =>
          exact .cond (ih test (by simp [parts]) scopes) (ih conseq (by simp [parts]) scopes)
            (ih alt (by simp [parts]) scopes)
      | seq es =>
          obtain ⟨lengths, parts⟩ := matches_all fun e he => ih e he scopes
          rw [letsAsCalls, allLetsAsCalls_eq_map]
          exact .seq lengths parts
      | letIn names inits body =>
          obtain ⟨bound, distinct⟩ := here
          have inner := ih body (List.mem_append_right inits List.mem_cons_self)
          cases inits with
          | nil =>
              obtain rfl := List.length_eq_zero_iff.mp bound
              exact .letNone (inner scopes)
          | cons first rest =>
              obtain ⟨lengths, parts⟩ := matches_all fun e he =>
                ih e (List.mem_append_left [body] he) scopes
              rw [letsAsCalls, allLetsAsCalls_eq_map]
              exact .letCall rfl (List.cons_ne_nil _ _) bound ⟨rfl, distinct⟩ lengths parts
                (inner (names :: scopes))
      | letRec names inits body =>
          obtain ⟨lengths, parts⟩ := matches_all fun e he =>
            ih e (List.mem_append_left [body] he) (names :: scopes)
          rw [letsAsCalls, allLetsAsCalls_eq_map]
          exact .letRec ⟨rfl, here.2.1⟩ lengths parts
            (ih body (List.mem_append_right inits List.mem_cons_self) (names :: scopes))
      | primApp name rands =>
          obtain ⟨lengths, parts⟩ := matches_all fun e he => ih e he scopes
          rw [letsAsCalls, allLetsAsCalls_eq_map]
          exact .primApp lengths parts
      | app rator rands =>
          obtain ⟨lengths, parts⟩ := matches_all fun e he =>
            ih e (List.mem_cons_of_mem rator he) scopes
          rw [letsAsCalls, allLetsAsCalls_eq_map]
          exact .app (ih rator List.mem_cons_self scopes) lengths parts

end Expr

end CoreLisp
