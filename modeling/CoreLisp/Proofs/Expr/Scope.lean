import CoreLisp.Proofs.Expr.Tail

/-!
# Scopes of occurrences

Each occurrence of an expression in a program stands inside binding constructs,
and the names that these bind, construct by construct and innermost first, are
its scope chain. Two occurrences of equal expressions can have different chains,
so a chain belongs to the occurrence and not to the expression.
-/
namespace CoreLisp.Expr

/-- The names that an expression binds around its inner parts. -/
def innerScope : Expr → Option (List Name)
  | letRec names _ _ => some names
  | _ => none

/-- The names that an expression binds around its parts in tail position. With
nothing to bind there is no scope. -/
def tailScope : Expr → Option (List Name)
  | letIn names inits _ => if inits.isEmpty then none else some names
  | letRec names _ _ => some names
  | _ => none

/-- The scope chain inside a scope, if there is one. -/
def enter : Option (List Name) → List (List Name) → List (List Name)
  | none, chain => chain
  | some names, chain => names :: chain

@[simp] theorem enter_none (chain : List (List Name)) : enter none chain = chain := rfl

@[simp] theorem enter_some (names : List Name) (chain : List (List Name)) :
    enter (some names) chain = names :: chain := rfl

/-- The program `p` has an occurrence of the expression with this scope chain. -/
inductive Occurs (p : Expr) : List (List Name) → Expr → Prop
  | root : Occurs p [] p
  | inner {chain : List (List Name)} {e part : Expr} : Occurs p chain e → part ∈ e.innerParts →
      Occurs p (enter e.innerScope chain) part
  | tail {chain : List (List Name)} {e part : Expr} : Occurs p chain e → part ∈ e.tailParts →
      Occurs p (enter e.tailScope chain) part
  | procedure {chain : List (List Name)} {params : List Name} {body : Expr} :
      Occurs p chain (lambda params body) → Occurs p (params :: chain) body

end CoreLisp.Expr
