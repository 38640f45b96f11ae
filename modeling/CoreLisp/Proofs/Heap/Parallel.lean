import CoreLisp.Proofs.Heap.Sides

/-!
# Operations on two heaps side by side

An operation is started on both sides with what matches. It gives results that match
and leaves heaps that agree, or it fails on both sides for matching causes. Sequences of
operations do so when each of them does.
-/
namespace CoreLisp

variable {c : Change} {w : Sides} {env : Env} {names names' : List Name} {v v' : Value}
variable {x y : Name}

namespace Action

variable {α β γ δ : Type} {Q : Sides → α → β → Prop} {R : Sides → γ → δ → Prop}
variable {a : Action α} {b : Action β}

/-- Both actions gave a result, and the heaps that they left agree, or both failed. -/
inductive Both (c : Change) (w : Sides) (Q : Sides → α → β → Prop) :
    EStateM.Result EvalError Heap α → EStateM.Result EvalError Heap β → Prop
  | ok {r : α} {r' : β} (w' : Sides) : w.Grows w' → w'.Agree c → Q w' r r' →
      Both c w Q (.ok r w'.left) (.ok r' w'.right)
  | error {e e' : EvalError} (h h' : Heap) : c.Errors e e' → Both c w Q (.error e h) (.error e' h')

/-- Started on two sides that agree, the actions do so. -/
def Parallel (c : Change) (w : Sides) (Q : Sides → α → β → Prop) (a : Action α)
    (b : Action β) : Prop :=
  w.Agree c → Both c w Q (a w.left) (b w.right)

theorem parallel_pure {r : α} {r' : β} (hr : Q w r r') : Parallel c w Q (pure r) (pure r') :=
  fun agree => .ok w (.refl w) agree hr

theorem parallel_throw {e e' : EvalError} (he : c.Errors e e') :
    Parallel c w Q (throw e : Action α) (throw e' : Action β) :=
  fun _ => .error _ _ he

theorem Parallel.bind {f : α → Action γ} {g : β → Action δ} (first : Parallel c w Q a b)
    (rest : ∀ w' r r', w.Grows w' → Q w' r r' → Parallel c w' R (f r) (g r')) :
    Parallel c w R (a >>= f) (b >>= g) := by
  intro agree
  change Both c w R (EStateM.bind a f w.left) (EStateM.bind b g w.right)
  unfold EStateM.bind
  have both := first agree
  generalize a w.left = ra at both
  generalize b w.right = rb at both
  cases both with
  | error h h' he => exact .error h h' he
  | @ok r r' w' grows agree' hr =>
      have after := rest w' r r' grows hr agree'
      simp only
      generalize f r w'.left = rf at after
      generalize g r' w'.right = rg at after
      cases after with
      | error h h' he => exact .error h h' he
      | ok w'' grows' agree'' hr' => exact .ok w'' (grows.trans grows') agree'' hr'

/-- The same when the first results are equal. -/
theorem Parallel.bind_eq {b : Action α} {f : α → Action γ} {g : α → Action δ}
    (first : Parallel c w (fun _ r r' => r' = r) a b)
    (rest : ∀ w' r, w.Grows w' → Parallel c w' R (f r) (g r)) :
    Parallel c w R (a >>= f) (b >>= g) := by
  refine first.bind fun w' r r' grows same => ?_
  cases same
  exact rest w' r grows

end Action

open CoreLisp.Action

namespace Env

theorem parallel_extend {values values' : List Value} (henv : env < w.left.frames.size)
    (binders : c.Binders names names') (hvalues : List.Forall₂ (Value.Matches c w) values values') :
    Parallel c w (fun w' inner inner' => inner' = inner ∧ w'.Enters env names names' inner)
      (env.extend names values) (env.extend names' values') := by
  intro agree
  have lengths := binders.length_eq
  by_cases hlen : names.length = values.length
  · have hlen' : names'.length = values'.length := by rw [← lengths, hlen, hvalues.length_eq]
    have left : env.extend names values w.left = .ok _ (w.left.addFrame _) :=
      extend_eq_ok_iff.mpr ⟨hlen, binders.left, rfl, rfl⟩
    have right : env.extend names' values' w.right = .ok _ (w.right.addFrame _) :=
      extend_eq_ok_iff.mpr ⟨hlen', binders.right, rfl, rfl⟩
    have frame : Frame.Matches c w ⟨names.zip values, some env⟩ ⟨names'.zip values', some env⟩ := by
      refine ⟨rfl, ?_, (forall₂_zip lengths hvalues).imp fun _ _ hb => hb.2⟩
      rwa [Frame.names, Frame.names, List.map_fst_zip (Nat.le_of_eq hlen),
        List.map_fst_zip (Nat.le_of_eq hlen')]
    have entersLeft := enters_of_extend left henv
    have entersRight := enters_of_extend right (w.frames_size ▸ henv)
    rw [← w.frames_size] at entersRight
    rw [left, right]
    exact .ok (w.addFrame _ _) .addFrame (agree.addFrame frame)
      ⟨w.frames_size.symm, entersLeft, entersRight⟩
  · have hlen' : ¬ names'.length = values'.length := by
      rwa [← lengths, ← hvalues.length_eq]
    have left : env.extend names values w.left = .error _ w.left :=
      extend_eq_error_iff.mpr ⟨rfl, .inl ⟨hlen, rfl⟩⟩
    have right : env.extend names' values' w.right = .error _ w.right :=
      extend_eq_error_iff.mpr ⟨rfl, .inl ⟨hlen', rfl⟩⟩
    rw [left, right, lengths, hvalues.length_eq]
    exact .error _ _ (.refl c _)

theorem parallel_lookup (same : (Expr.ref x).MatchesAt c w env [] [] (.ref y)) :
    Parallel c w (Value.Matches c) (env.lookup x) (env.lookup y) := by
  intro agree
  cases same.2 with
  | ref same =>
      unfold lookup
      rcases agree.find? same with ⟨hl, hr, rfl⟩ | ⟨owner, v, v', f, f', hl, hr, -, -, -, hv⟩
      · rw [hl, hr]
        exact .error _ _ (.refl c _)
      · rw [hl, hr]
        exact .ok w (.refl w) agree hv

theorem parallel_assign (same : (Expr.ref x).MatchesAt c w env [] [] (.ref y))
    (hv : v.Matches c w v') :
    Parallel c w (fun _ _ _ => True) (env.assign x v) (env.assign y v') := by
  intro agree
  cases same.2 with
  | ref same =>
      unfold assign
      rcases agree.find? same with ⟨hl, hr, rfl⟩ | ⟨owner, u, u', f, f', hl, hr, hf, hf', hxy, -⟩
      · rw [hl, hr]
        exact .error _ _ (.refl c _)
      · rw [hl, hr]
        exact .ok (w.rebind owner x y v v') .rebind (agree.rebind hf hf' hxy hv) trivial

theorem parallel_assignAll {bindings bindings' : List (Name × Value)}
    (same : List.Forall₂ (fun b b' => (Expr.ref b.1).MatchesAt c w env [] [] (.ref b'.1) ∧
      b.2.Matches c w b'.2) bindings bindings') :
    Parallel c w (fun _ _ _ => True) (env.assignAll bindings) (env.assignAll bindings') := by
  induction bindings generalizing w bindings' with
  | nil =>
      cases same
      exact parallel_pure trivial
  | cons b rest ih =>
      cases same with
      | cons here later =>
          refine (parallel_assign here.1 here.2).bind fun w' _ _ grows _ => ih ?_
          exact later.imp fun _ _ hb => ⟨hb.1.mono grows, hb.2.mono grows⟩

end Env

theorem Closure.parallel_new {params params' : List Name} {body body' : Expr}
    (same : (Expr.lambda params body).MatchesAt c w env [] [] (.lambda params' body')) :
    Parallel c w (fun w' f f' => Value.Matches c w' (.procedure f) (.procedure f'))
      (Closure.new params body env) (Closure.new params' body' env) := by
  intro agree
  obtain ⟨henv, same⟩ := same
  cases same with
  | lambda binders inside =>
      have here : body.MatchesAt c w env [params] [params'] body' := ⟨henv, inside⟩
      exact .ok w.addProcedure .addProcedure agree.addProcedure
        (.procedure (.inr ⟨rfl, rfl⟩) rfl binders (here.mono .addProcedure))

namespace BoxRef

variable {ref : BoxRef}

theorem parallel_new (hv : v.Matches c w v') :
    Parallel c w (fun _ ref ref' => ref' = ref) (BoxRef.new v) (BoxRef.new v') :=
  fun agree => .ok (w.addBox v v') .addBox (agree.addBox hv) w.boxes_size.symm

theorem parallel_get : Parallel c w (Value.Matches c) ref.get ref.get :=
  fun agree => .ok w (.refl w) agree (agree.contents ref)

theorem parallel_set (hv : v.Matches c w v') :
    Parallel c w (fun _ _ _ => True) (ref.set v) (ref.set v') :=
  fun agree => .ok (w.setBox ref v v') .setBox (agree.setBox hv) trivial

end BoxRef

end CoreLisp
