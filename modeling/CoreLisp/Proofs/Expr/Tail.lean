import CoreLisp.Proofs.Expr.WellFormed

/-!
# Tail positions

A part of an expression in tail position takes the place of the whole, and for
every other part a frame waits. The height of an expression counts the frames
that wait in it at once; what a procedure does when it is called is not counted
where the procedure is made or called, so the height is known without running
anything.

If all calls are in tail position then no frame waits while a procedure body is
evaluated, and the height of a program and of the procedure bodies in it says
how deep the stack can become.
-/
namespace CoreLisp.Expr

/-- The parts in tail position. The body of a procedure is not evaluated where the
procedure is made. -/
def tailParts : Expr → List Expr
  | letIn _ _ body | letRec _ _ body => [body]
  | seq body => body.getLast?.toList
  | cond _ conseq alt => [conseq, alt]
  | ref _ | datum _ | lambda .. | app .. | primApp .. | assign .. => []

/-- The parts for whose value a frame waits. -/
def innerParts : Expr → List Expr
  | letIn _ inits _ | letRec _ inits _ => inits
  | seq body => body.dropLast
  | cond test _ _ => [test]
  | app rator rands => rator :: rands
  | primApp _ rands => rands
  | assign _ rhs => [rhs]
  | ref _ | datum _ | lambda .. => []

theorem mem_parts_iff {e part : Expr} :
    part ∈ e.parts ↔ part ∈ e.innerParts ∨ part ∈ e.tailParts ∨ ∃ params, e = lambda params part := by
  cases e with
  | seq body =>
      rcases List.eq_nil_or_concat body with rfl | ⟨init, last, rfl⟩
      · simp [parts, innerParts, tailParts]
      · simp [parts, innerParts, tailParts]
  | lambda params body => simp [parts, innerParts, tailParts, eq_comm]
  | _ => simp [parts, innerParts, tailParts]

/-- All calls are in tail position, of the expression if `tail` holds and of the
procedure body around them in any case. -/
inductive TailCalls : Bool → Expr → Prop
  | node {tail : Bool} {e : Expr} : (∀ rator rands, e = app rator rands → tail = true) →
      (∀ part ∈ e.innerParts, TailCalls false part) → (∀ part ∈ e.tailParts, TailCalls tail part) →
      (∀ params body, e = lambda params body → TailCalls true body) → TailCalls tail e

mutual

/-- How many frames wait at once in the expression, apart from calls. -/
def height : Expr → Nat
  | datum _ | ref _ | lambda .. => 0
  | assign _ rhs => 1 + height rhs
  | cond test conseq alt => max (1 + height test) (max (height conseq) (height alt))
  | seq body => heightSeq body
  | letIn _ inits body | letRec _ inits body => max (heightInner inits) (height body)
  | primApp _ rands => heightInner rands
  | app rator rands => max (1 + height rator) (heightInner rands)

/-- A frame waits for the value of each of these. -/
def heightInner : List Expr → Nat
  | [] => 0
  | e :: es => max (1 + height e) (heightInner es)

/-- A frame waits for the value of each of these but the last. -/
def heightSeq : List Expr → Nat
  | [] => 0
  | [last] => height last
  | e :: next :: es => max (1 + height e) (heightSeq (next :: es))

end

mutual

/-- The bodies of all procedures that occur in an expression. -/
def bodies : Expr → List Expr
  | datum _ | ref _ => []
  | lambda _ body => body :: bodies body
  | assign _ rhs => bodies rhs
  | cond test conseq alt => bodies test ++ (bodies conseq ++ bodies alt)
  | letIn _ inits body | letRec _ inits body => bodiesAll inits ++ bodies body
  | seq es | primApp _ es => bodiesAll es
  | app rator rands => bodies rator ++ bodiesAll rands

def bodiesAll : List Expr → List Expr
  | [] => []
  | e :: es => bodies e ++ bodiesAll es

end

def tallest (es : List Expr) : Nat := (es.map height).foldr max 0

/-- The greatest height of the expression and of the procedure bodies in it. -/
def stackHeight (e : Expr) : Nat := tallest (e :: e.bodies)

variable {e part body : Expr} {es : List Expr} {tail : Bool}

theorem height_le_heightInner (mem : part ∈ es) : 1 + part.height ≤ heightInner es := by
  induction es with
  | nil => cases mem
  | cons e es ih =>
      rw [heightInner]
      rcases List.mem_cons.mp mem with rfl | mem
      · omega
      · have := ih mem
        omega

theorem height_le_heightSeq (mem : part ∈ es.dropLast) : 1 + part.height ≤ heightSeq es := by
  induction es with
  | nil => cases mem
  | cons e es ih =>
      cases es with
      | nil => cases mem
      | cons next es =>
          rw [heightSeq]
          rcases List.mem_cons.mp mem with rfl | mem
          · omega
          · have := ih mem
            omega

theorem height_last_le_heightSeq (hlast : es.getLast? = some part) :
    part.height ≤ heightSeq es := by
  induction es with
  | nil => cases hlast
  | cons e es ih =>
      cases es with
      | nil =>
          cases hlast
          exact Nat.le_refl _
      | cons next es =>
          rw [heightSeq]
          have := ih (by simpa [List.getLast?_cons_cons] using hlast)
          omega

theorem height_inner (mem : part ∈ e.innerParts) : 1 + part.height ≤ e.height := by
  cases e with
  | letIn names inits body | letRec names inits body =>
      have : 1 + part.height ≤ heightInner inits := height_le_heightInner mem
      rw [height]
      omega
  | seq body => exact height_le_heightSeq mem
  | cond test conseq alt =>
      rw [List.mem_singleton.mp mem, height]
      omega
  | app rator rands =>
      rw [height]
      rcases List.mem_cons.mp mem with rfl | mem
      · omega
      · have := height_le_heightInner mem
        omega
  | primApp => exact height_le_heightInner mem
  | assign x rhs =>
      rw [List.mem_singleton.mp mem, height]
  | ref | datum | lambda => cases mem

theorem height_tail (mem : part ∈ e.tailParts) : part.height ≤ e.height := by
  cases e with
  | letIn | letRec =>
      rw [List.mem_singleton.mp mem, height]
      omega
  | seq body => exact height_last_le_heightSeq (Option.mem_toList.mp mem)
  | cond test conseq alt =>
      rw [height]
      rcases List.mem_cons.mp mem with rfl | mem
      · omega
      · rw [List.mem_singleton.mp mem]
        omega
  | ref | datum | lambda | app | primApp | assign => cases mem

theorem bodies_subset_bodiesAll (mem : part ∈ es) : part.bodies ⊆ bodiesAll es := by
  induction es with
  | nil => cases mem
  | cons e es ih =>
      rw [bodiesAll]
      rcases List.mem_cons.mp mem with rfl | mem
      · exact List.subset_append_left _ _
      · exact List.subset_append_of_subset_right _ (ih mem)

theorem bodies_part (mem : part ∈ e.parts) : part.bodies ⊆ e.bodies := by
  cases e with
  | letIn names inits body | letRec names inits body =>
      rw [bodies]
      rcases List.mem_append.mp mem with mem | mem
      · exact List.subset_append_of_subset_left _ (bodies_subset_bodiesAll mem)
      · rw [List.mem_singleton.mp mem]
        exact List.subset_append_right _ _
  | seq | primApp => exact bodies_subset_bodiesAll mem
  | cond test conseq alt =>
      intro b hb
      simp only [parts, List.mem_cons, List.not_mem_nil, or_false] at mem
      simp only [bodies, List.mem_append]
      rcases mem with rfl | rfl | rfl
      · exact .inl hb
      · exact .inr (.inl hb)
      · exact .inr (.inr hb)
  | lambda params body =>
      rw [List.mem_singleton.mp mem]
      exact List.subset_cons_self _ _
  | app rator rands =>
      rw [bodies]
      rcases List.mem_cons.mp mem with rfl | mem
      · exact List.subset_append_left _ _
      · exact List.subset_append_of_subset_right _ (bodies_subset_bodiesAll mem)
  | assign x rhs =>
      rw [List.mem_singleton.mp mem]
      exact List.Subset.refl _
  | ref | datum => cases mem

theorem height_le_tallest (mem : part ∈ es) : part.height ≤ tallest es := by
  induction es with
  | nil => cases mem
  | cons e es ih =>
      rw [tallest, List.map_cons, List.foldr_cons]
      rcases List.mem_cons.mp mem with rfl | mem
      · exact Nat.le_max_left _ _
      · exact Nat.le_trans (ih mem) (Nat.le_max_right _ _)

theorem height_le_stackHeight (e : Expr) : e.height ≤ e.stackHeight :=
  height_le_tallest List.mem_cons_self

theorem height_body_le_stackHeight (mem : body ∈ e.bodies) : body.height ≤ e.stackHeight :=
  height_le_tallest (List.mem_cons_of_mem e mem)

end CoreLisp.Expr
