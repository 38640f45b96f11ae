import CoreLisp.Value

/-!
# What is still to be done

While a part of an expression is evaluated, the rest of the expression waits on
the stack. Each waiting frame says what happens with the next value, and carries
the environment in which its own parts are evaluated. A frame whose parts are
evaluated one after another keeps all of them together with the values found so
far: the next part is the one whose index is the number of those values.
-/
namespace CoreLisp

inductive Kont where
  | halt (env : Env)
  | cond (env : Env) (conseq alt : Expr)
  | assign (env : Env) (name : Name)
  | letIn (env : Env) (names : List Name) (inits : List Expr) (body : Expr) (values : List Value)
  /-- Here `env` is the new frame, in which all names are still undefined. -/
  | letRec (env : Env) (names : List Name) (inits : List Expr) (body : Expr) (values : List Value)
  /-- The expression at `index` is the next one. -/
  | seq (env : Env) (body : List Expr) (index : Nat)
  | primApp (env : Env) (name : Name) (rands : List Expr) (values : List Value)
  | operator (env : Env) (rands : List Expr)
  | operand (env : Env) (rands : List Expr) (operator : Value) (values : List Value)

namespace Kont

/-- The environment that is current again when the frame goes on. -/
def env : Kont → Env
  | halt env | cond env .. | assign env _ | letIn env .. | letRec env .. | seq env ..
  | primApp env .. | operator env _ | operand env .. => env

/-- The kind of a frame, as the log names it. -/
def kind : Kont → String
  | halt _ => "halt"
  | cond .. => "if"
  | assign .. => "set!"
  | letIn .. => "let"
  | letRec .. => "letrec"
  | seq .. => "seq"
  | primApp .. => "primapp"
  | operator .. => "operator"
  | operand .. => "operand"

end Kont

/-- The waiting frames, next one first. The depth is kept beside them, because
it is asked for at every step. -/
structure Stack where
  frames : List Kont := []
  depth : Nat := frames.length
  depth_eq : depth = frames.length := by rfl

namespace Stack

def empty : Stack := {}

def push (k : Kont) (s : Stack) : Stack :=
  ⟨k :: s.frames, s.depth + 1, by simp [s.depth_eq]⟩

/-- The next frame and what is below it. -/
def pop? (s : Stack) : Option (Kont × Stack) :=
  match s with
  | ⟨[], _, _⟩ => none
  | ⟨k :: frames, depth, h⟩ => some (k, ⟨frames, depth - 1, by simp [h]⟩)

@[ext] theorem ext {s t : Stack} (h : s.frames = t.frames) : s = t := by
  obtain ⟨_, _, rfl⟩ := s
  obtain ⟨_, _, rfl⟩ := t
  cases h
  rfl

@[simp] theorem frames_empty : empty.frames = [] := rfl

@[simp] theorem frames_push (k : Kont) (s : Stack) : (s.push k).frames = k :: s.frames := rfl

@[simp] theorem depth_push (k : Kont) (s : Stack) : (s.push k).depth = s.depth + 1 := rfl

@[simp] theorem pop?_push (k : Kont) (s : Stack) : (s.push k).pop? = some (k, s) := by
  simp [push, pop?]

theorem pop?_eq_none_iff {s : Stack} : s.pop? = none ↔ s = empty := by
  obtain ⟨frames, _, rfl⟩ := s
  cases frames <;> simp [pop?, Stack.ext_iff]

theorem pop?_eq_some_iff {s t : Stack} {k : Kont} : s.pop? = some (k, t) ↔ s = t.push k := by
  obtain ⟨frames, _, rfl⟩ := s
  cases frames with
  | nil => simp [pop?, Stack.ext_iff]
  | cons k' frames => simp [pop?, Stack.ext_iff]

theorem empty_or_push (s : Stack) : s = empty ∨ ∃ k below, s = push k below := by
  cases hpop : s.pop? with
  | none => exact .inl (pop?_eq_none_iff.mp hpop)
  | some top => exact .inr ⟨top.1, top.2, pop?_eq_some_iff.mp hpop⟩

end Stack

end CoreLisp
