import CoreLisp.Proofs.Expr.Matching

/-!
# The primitives that an expression calls

A primitive is called by a name that stands in the expression itself, so the names of
all primitives that a program can call are known before it runs. They are names of
another kind than those of variables: renaming the variables of a program, even after
its primitives, changes none of them.
-/
namespace CoreLisp.Expr

mutual

/-- The names of the primitives that an expression calls, those in the bodies of
procedures too. -/
def operators : Expr → List Name
  | datum _ | ref _ => []
  | lambda _ body => operators body
  | assign _ rhs => operators rhs
  | cond test conseq alt => operators test ++ (operators conseq ++ operators alt)
  | letIn _ inits body | letRec _ inits body => operatorsAll inits ++ operators body
  | seq es => operatorsAll es
  | primApp name rands => name :: operatorsAll rands
  | app rator rands => operators rator ++ operatorsAll rands

def operatorsAll : List Expr → List Name
  | [] => []
  | e :: es => operators e ++ operatorsAll es

end

/-- The name of the primitive that the expression itself calls, if it is such a call. -/
def operator? : Expr → Option Name
  | primApp name _ => some name
  | _ => none

/-- If the expression itself calls a primitive then by one of these names. -/
def CallsAmong (names : List Name) (e : Expr) : Prop := ∀ name ∈ e.operator?, name ∈ names

variable {e e' part : Expr} {es es' : List Expr} {names : List Name}

theorem operatorsAll_eq_flatMap (es : List Expr) : operatorsAll es = es.flatMap operators := by
  induction es with
  | nil => rfl
  | cons e es ih => rw [operatorsAll, ih, List.flatMap_cons]

theorem operators_eq (e : Expr) :
    e.operators = e.operator?.toList ++ e.parts.flatMap operators := by
  cases e <;> simp [operators, operator?, parts, operatorsAll_eq_flatMap]

theorem operators_part (mem : part ∈ e.parts) : part.operators ⊆ e.operators := by
  rw [operators_eq e]
  intro name hname
  exact List.mem_append_right _ (List.mem_flatMap.mpr ⟨part, mem, hname⟩)

/-- Every call of a primitive in the expression is by one of its operators. -/
theorem everywhere_callsAmong (within : e.operators ⊆ names) :
    e.Everywhere (CallsAmong names) := by
  induction h : sizeOf e using Nat.strongRecOn generalizing e with
  | ind n ih =>
      refine .node ?_ ?_
      · intro name hname
        rw [operators_eq e] at within
        exact within (List.mem_append_left _ (Option.mem_toList.mpr hname))
      · intro part mem
        have inside : part.operators ⊆ names := List.Subset.trans (operators_part mem) within
        exact ih _ (h ▸ sizeOf_part mem) inside rfl

theorem operatorsAll_eq_of_zip (lengths : es.length = es'.length)
    (same : ∀ {e e' : Expr}, (e, e') ∈ es.zip es' → e.operators = e'.operators) :
    operatorsAll es = operatorsAll es' := by
  induction es generalizing es' with
  | nil =>
      obtain rfl := List.length_eq_zero_iff.mp lengths.symm
      rfl
  | cons e es ih =>
      obtain ⟨e', es', rfl⟩ := List.exists_cons_of_length_eq_add_one lengths.symm
      have later : operatorsAll es = operatorsAll es' :=
        ih (Nat.succ.inj lengths) fun mem => same (List.mem_cons_of_mem _ mem)
      rw [operatorsAll, operatorsAll, same List.mem_cons_self, later]

/-- Renaming variables leaves the operators as they are. -/
theorem Matches.operators_eq {scopes scopes' : List (List Name)}
    (same : e.Matches .names scopes scopes' e') : e.operators = e'.operators := by
  induction same with
  | datum | ref => rfl
  | assign _ _ ih | lambda _ _ ih => simp only [operators, ih]
  | cond _ _ _ htest hconseq halt => simp only [operators, htest, hconseq, halt]
  | seq lengths _ ih => simp only [operators, operatorsAll_eq_of_zip lengths ih]
  | letNone _ ih => simp only [operators, ih]
  | letIn _ _ _ lengths _ _ ihs ih | letRec _ lengths _ _ ihs ih =>
      simp only [operators, operatorsAll_eq_of_zip lengths ihs, ih]
  | letCall hc => cases hc
  | primApp lengths _ ih => simp only [operators, operatorsAll_eq_of_zip lengths ih]
  | app _ lengths _ ih ihs => simp only [operators, operatorsAll_eq_of_zip lengths ihs, ih]

end CoreLisp.Expr
