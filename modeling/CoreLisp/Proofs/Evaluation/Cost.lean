import CoreLisp.Proofs.Evaluation.Refinement
import CoreLisp.Proofs.Heap.Operations
import CoreLisp.Session

/-!
# The cost of an evaluation

The rules of direct evaluation, one for each construct, with two numbers at each
conclusion: how many steps the machine makes to get the value, and how many
frames it has at most on top of the stack that it began on. Both numbers are put
together from those of the parts. A part that waits for others is evaluated on
one frame more; the part in tail position is not.
-/
namespace CoreLisp

open Evaluation
open CoreLisp.Action (bind_eq_ok_iff)

namespace Expr

/-- The values of several expressions, from left to right, with the sum of their steps
and the frames that they take when each of them waits on a frame. `R` says the same
of one expression. -/
inductive InTurn (R : Expr → Env → Heap → Value → Heap → Nat → Nat → Prop) :
    List Expr → Env → Heap → List Value → Heap → Nat → Nat → Prop
  | nil {env : Env} {h : Heap} : InTurn R [] env h [] h 0 0
  | cons {e : Expr} {es : List Expr} {env : Env} {h h₁ h' : Heap} {v : Value} {vs : List Value}
      {c p cs ps : Nat} :
      R e env h v h₁ c p → InTurn R es env h₁ vs h' cs ps →
      InTurn R (e :: es) env h (v :: vs) h' (c + cs) (max (1 + p) ps)

/-- The value of an expression, with the steps and the frames that it takes. -/
inductive Evaluates (table : Table) : Expr → Env → Heap → Value → Heap → Nat → Nat → Prop
  | datum {d : Datum} {env : Env} {h : Heap} : Evaluates table (.datum d) env h d.value h 1 0
  | ref {x : Name} {env : Env} {h h' : Heap} {v : Value} :
      Env.lookup env x h = .ok v h' → Evaluates table (.ref x) env h v h' 1 0
  | lambda {params : List Name} {body : Expr} {env : Env} {h h' : Heap} {f : Closure} :
      Closure.new params body env h = .ok f h' →
      Evaluates table (.lambda params body) env h (.procedure f) h' 1 0
  | cond {test conseq alt : Expr} {env : Env} {h h₁ h' : Heap} {u v : Value} {c p c' p' : Nat} :
      Evaluates table test env h u h₁ c p →
      Evaluates table (if u.isTruthy then conseq else alt) env h₁ v h' c' p' →
      Evaluates table (.cond test conseq alt) env h v h' (c + c' + 2) (max (1 + p) p')
  | assign {x : Name} {rhs : Expr} {env : Env} {h h₁ h' : Heap} {v : Value} {c p : Nat} :
      Evaluates table rhs env h v h₁ c p → Env.assign env x v h₁ = .ok () h' →
      Evaluates table (.assign x rhs) env h .unit h' (c + 2) (1 + p)
  | seq {init : List Expr} {last : Expr} {env : Env} {h h₁ h' : Heap} {vs : List Value}
      {v : Value} {cs ps c p : Nat} :
      InTurn (Evaluates table) init env h vs h₁ cs ps → Evaluates table last env h₁ v h' c p →
      Evaluates table (.seq (init ++ [last])) env h v h' (init.length + 1 + (cs + c)) (max ps p)
  | letNone {body : Expr} {env : Env} {h h' : Heap} {v : Value} {c p : Nat} :
      Evaluates table body env h v h' c p →
      Evaluates table (.letIn [] [] body) env h v h' (1 + c) p
  | letIn {names : List Name} {inits : List Expr} {body : Expr} {env inner : Env}
      {h h₁ h₂ h' : Heap} {vs : List Value} {v : Value} {cs ps c p : Nat} :
      names.length = inits.length → inits ≠ [] →
      InTurn (Evaluates table) inits env h vs h₁ cs ps →
      Env.extend env names vs h₁ = .ok inner h₂ → Evaluates table body inner h₂ v h' c p →
      Evaluates table (.letIn names inits body) env h v h' (1 + inits.length + cs + c) (max ps p)
  | letRec {names : List Name} {inits : List Expr} {body : Expr} {env inner : Env}
      {h h₀ h₁ h₂ h' : Heap} {vs : List Value} {v : Value} {cs ps c p : Nat} :
      names.length = inits.length → inits ≠ [] →
      Env.extend env names (names.map fun _ => .undefined) h = .ok inner h₀ →
      InTurn (Evaluates table) inits inner h₀ vs h₁ cs ps →
      Env.assignAll inner (names.zip vs) h₁ = .ok () h₂ → Evaluates table body inner h₂ v h' c p →
      Evaluates table (.letRec names inits body) env h v h' (1 + inits.length + cs + c) (max ps p)
  | primApp {name : Name} {rands : List Expr} {env : Env} {h h₁ h' : Heap} {vs : List Value}
      {v : Value} {cs ps : Nat} :
      InTurn (Evaluates table) rands env h vs h₁ cs ps → table.apply name vs h₁ = .ok v h' →
      Evaluates table (.primApp name rands) env h v h' (1 + rands.length + cs) ps
  | app {rator : Expr} {rands : List Expr} {env inner : Env} {h h₁ h₂ h₃ h' : Heap} {f : Closure}
      {vs : List Value} {v : Value} {c₀ p₀ cs ps c p : Nat} :
      Evaluates table rator env h (.procedure f) h₁ c₀ p₀ →
      InTurn (Evaluates table) rands env h₁ vs h₂ cs ps → vs.length = f.params.length →
      Env.extend f.env f.params vs h₂ = .ok inner h₃ → Evaluates table f.body inner h₃ v h' c p →
      Evaluates table (.app rator rands) env h v h' (2 + rands.length + c₀ + cs + c)
        (max (1 + p₀) (max ps p))

theorem InTurn.one_le {R : Expr → Env → Heap → Value → Heap → Nat → Nat → Prop} {e : Expr}
    {es : List Expr} {env : Env} {h h' : Heap} {vs : List Value} {cs ps : Nat}
    (turn : InTurn R (e :: es) env h vs h' cs ps) : 1 ≤ ps := by
  cases turn with
  | cons => omega

end Expr

namespace Machine

/-- The run from `s` comes to `s'` in `n` steps, and the deepest stack that it makes a
step from has `d` frames. -/
inductive Climbs (table : Table) : Nat → Nat → State → Heap → State → Heap → Prop
  | done (s : State) (h : Heap) : Climbs table 0 0 s h s h
  | step {n d : Nat} {s s₁ s' : State} {h h₁ h' : Heap} : s.Running →
      step table s h = .ok s₁ h₁ → Climbs table n d s₁ h₁ s' h' →
      Climbs table (n + 1) (max s.stack.depth d) s h s' h'

variable {table : Table} {n m d d' : Nat} {s s₁ s' : State} {h h₁ h' : Heap} {stack : Stack}
variable {env : Env} {v : Value}

theorem Climbs.one (running : s.Running) (hs : Machine.step table s h = .ok s' h') :
    Climbs table 1 s.stack.depth s h s' h' := by
  have climbs := Climbs.step running hs (.done s' h')
  rwa [Nat.max_zero] at climbs

theorem Climbs.trans {s₂ : State} {h₂ : Heap} (first : Climbs table n d s h s₁ h₁)
    (rest : Climbs table m d' s₁ h₁ s₂ h₂) : Climbs table (n + m) (max d d') s h s₂ h₂ := by
  induction first with
  | done => simpa using rest
  | step running hs _ ih =>
      rw [Nat.add_right_comm, Nat.max_assoc]
      exact .step running hs (ih rest)

theorem Climbs.steps (climbs : Climbs table n d s h s' h') : Steps table n s h s' h' := by
  induction climbs with
  | done => exact .done _ _
  | step running hs _ ih => exact .step running hs ih

/-- The counters go on from where the run has come to. -/
theorem Climbs.runWith (climbs : Climbs table n d s h s' h') (fuel : Nat) (seen : Stats) :
    runWith table (fun s _ => Stats.count s.stack.depth) (n + fuel) seen s h =
      runWith table (fun s _ => Stats.count s.stack.depth) fuel
        ⟨seen.steps + n, max seen.peakDepth d⟩ s' h' := by
  induction climbs generalizing seen with
  | done => simp
  | step running hs _ ih =>
      rw [Nat.add_right_comm, runWith_running running, hs]
      simp only [ih, Stats.count, Nat.max_assoc, Nat.add_assoc, Nat.add_comm 1]

theorem Climbs.congr (climbs : Climbs table n d s h s' h') (hn : n = m) (hd : d = d') :
    Climbs table m d' s h s' h' := by
  subst hn hd
  exact climbs

/-- The step that turns to a part adds none to the frames if the run goes on from the
same stack or a deeper one. -/
theorem Climbs.visit {e : Expr} (climbs : Climbs table n d s₁ h₁ s' h')
    (hs : Machine.step table ⟨.evaluating e, env, stack⟩ h = .ok s₁ h₁) (hd : stack.depth ≤ d) :
    Climbs table (n + 1) d ⟨.evaluating e, env, stack⟩ h s' h' :=
  (Climbs.step State.running_evaluating hs climbs).congr rfl (Nat.max_eq_right hd)

open CoreLisp.Expr (InTurn Evaluates)

variable {e body : Expr} {es inits rands : List Expr} {vs ws : List Value} {names : List Name}
variable {inner : Env} {h₂ h₃ : Heap} {c p cs ps c' p' : Nat} {u : Value}

/-- On any stack the machine comes to the value in `c` steps, with at most `p` frames
on top of the stack. -/
def Costs (table : Table) (e : Expr) (env : Env) (h : Heap) (v : Value) (h' : Heap) (c p : Nat) :
    Prop :=
  ∀ stack : Stack, ∃ s', Climbs table c (stack.depth + p) ⟨.evaluating e, env, stack⟩ h s' h' ∧
    Returned stack v s'

/-- Induction on the parts that are left; those before them have their values in
the frame. -/
theorem Gathers.climbs {parts : List Expr} {frame : List Value → Kont}
    {finish : List Value → Stack → Action State} (gathers : Gathers table env parts frame finish)
    (stack : Stack) (values : List Value) (before : List Expr) (e : Expr) (after : List Expr)
    (hp : parts = before ++ e :: after) (hl : before.length = values.length)
    (turn : InTurn (Costs table) (e :: after) env h ws h' cs ps) :
    ∃ s', Climbs table (cs + after.length) (stack.depth + ps)
        ⟨.evaluating e, env, stack.push (frame values)⟩ h s' h' ∧
      Ready table (fun vs => finish vs stack) (values ++ ws) s' ∧
      s'.stack.depth = stack.depth + 1 := by
  induction after generalizing h values before e ws cs ps with
  | nil =>
      cases turn with
      | @cons _ _ _ _ _ _ v _ c p _ _ cost turn =>
      cases turn
      obtain ⟨s', climbs, env', rfl⟩ := cost (stack.push (frame values))
      rw [Stack.depth_push] at climbs
      refine ⟨_, climbs.congr (by simp) (by omega), ⟨State.running_returning, ?_⟩, rfl⟩
      have hlast : parts[values.length + 1]? = none := by simp [hp, ← hl]
      rw [step_returning, gathers.last v stack hlast]
  | cons e' after ih =>
      cases turn with
      | @cons _ _ _ _ h₁ _ v _ c p _ _ cost turn =>
      obtain ⟨s', climbs, env', rfl⟩ := cost (stack.push (frame values))
      have hnext : parts[values.length + 1]? = some e' := by simp [hp, ← hl]
      have hs : step table ⟨.returning v, env', stack.push (frame values)⟩ h₁ =
          .ok ⟨.evaluating e', env, stack.push (frame (values ++ [v]))⟩ h₁ := by
        rw [step_returning, gathers.next v stack hnext]
        rfl
      obtain ⟨s', rest, ready, hdepth⟩ :=
        ih (values ++ [v]) (before ++ [e]) e' (by simp [hp]) (by simp [hl]) turn
      have whole := climbs.trans (.step State.running_returning hs rest)
      have hroom := turn.one_le
      simp only [Stack.depth_push] at whole
      refine ⟨s', whole.congr ?_ (by omega), by simpa using ready, hdepth⟩
      rw [List.length_cons]
      omega

/-- The last element takes the place of the sequence. Induction on the elements that
are left, those before them being done. -/
theorem climbs_seq (stack : Stack) {body : List Expr} (before init : List Expr) (last : Expr)
    (hb : body = before ++ init ++ [last]) (turn : InTurn (Costs table) init env h vs h₁ cs ps)
    (cost : Costs table last env h₁ v h' c p) :
    ∃ s', Climbs table (cs + init.length + c) (stack.depth + max ps p)
        ⟨.evaluating ((init ++ [last]).head (by simp)), env,
          seqStack env body (before.length + 1) stack⟩ h s' h' ∧ Returned stack v s' := by
  induction init generalizing before h vs cs ps with
  | nil =>
      cases turn
      have hstack : seqStack env body (before.length + 1) stack = stack := by
        simp [seqStack, hb]
      obtain ⟨s', climbs, returned⟩ := cost stack
      rw [hstack]
      exact ⟨s', climbs.congr (by simp) (by simp), returned⟩
  | cons e init ih =>
      cases turn with
      | @cons _ _ _ _ h₂ _ u _ c' p' _ _ cost' turn =>
      have hstack : seqStack env body (before.length + 1) stack =
          stack.push (.seq env body (before.length + 1)) := by
        simp [seqStack, hb]
      obtain ⟨s₁, climbs, env', rfl⟩ := cost' (stack.push (.seq env body (before.length + 1)))
      have hnext : body[before.length + 1]? = some ((init ++ [last]).head (by simp)) := by
        rw [hb]
        cases init <;> simp
      have hs : step table ⟨.returning u, env', stack.push (.seq env body (before.length + 1))⟩ h₂ =
          .ok ⟨.evaluating ((init ++ [last]).head (by simp)), env,
            seqStack env body (before.length + 2) stack⟩ h₂ := by
        rw [step_returning]
        simp only [resume, hnext, seqStack]
        split <;> rfl
      obtain ⟨s', rest, returned⟩ := ih (before ++ [e]) (by simp [hb]) turn
      rw [List.length_append, List.length_singleton] at rest
      have whole := climbs.trans (.step State.running_returning hs rest)
      simp only [Stack.depth_push] at whole
      rw [hstack]
      refine ⟨s', whole.congr ?_ (by omega), returned⟩
      rw [List.length_cons]
      omega

theorem costs_of_visit
    (hs : ∀ stack, visit table e env stack h = .ok ⟨.returning v, env, stack⟩ h') :
    Costs table e env h v h' 1 0 :=
  fun stack => ⟨_, .one State.running_evaluating (hs stack), env, rfl⟩

theorem costs_cond {test conseq alt : Expr} (test' : Costs table test env h u h₁ c p)
    (branch : Costs table (if u.isTruthy then conseq else alt) env h₁ v h' c' p') :
    Costs table (.cond test conseq alt) env h v h' (c + c' + 2) (max (1 + p) p') := by
  intro stack
  obtain ⟨s₁, climbs, env', rfl⟩ := test' (stack.push (.cond env conseq alt))
  obtain ⟨s', rest, returned⟩ := branch stack
  have hs : step table ⟨.returning u, env', stack.push (.cond env conseq alt)⟩ h₁ =
      .ok ⟨.evaluating (if u.isTruthy then conseq else alt), env, stack⟩ h₁ := by
    rw [step_returning]
    rfl
  have below := climbs.trans (.step State.running_returning hs rest)
  simp only [Stack.depth_push] at below
  exact ⟨s', (below.visit rfl (by omega)).congr (by omega) (by omega), returned⟩

theorem costs_assign {x : Name} {rhs : Expr} (cost : Costs table rhs env h v h₁ c p)
    (hx : Env.assign env x v h₁ = .ok () h') :
    Costs table (.assign x rhs) env h .unit h' (c + 2) (1 + p) := by
  intro stack
  obtain ⟨s₁, climbs, env', rfl⟩ := cost (stack.push (.assign env x))
  have hs : step table ⟨.returning v, env', stack.push (.assign env x)⟩ h₁ =
      .ok ⟨.returning .unit, env, stack⟩ h' := by
    rw [step_returning]
    exact bind_eq_ok_iff.mpr ⟨(), h', hx, rfl⟩
  have below := climbs.trans (.one State.running_returning hs)
  simp only [Stack.depth_push] at below
  exact ⟨_, (below.visit rfl (by omega)).congr (by omega) (by omega), env, rfl⟩

theorem costs_seq {init : List Expr} {last : Expr}
    (turn : InTurn (Costs table) init env h vs h₁ cs ps)
    (cost : Costs table last env h₁ v h' c p) :
    Costs table (.seq (init ++ [last])) env h v h' (init.length + 1 + (cs + c)) (max ps p) := by
  intro stack
  obtain ⟨s', climbs, returned⟩ := climbs_seq stack [] init last rfl turn cost
  have hs : step table ⟨.evaluating (.seq (init ++ [last])), env, stack⟩ h =
      .ok ⟨.evaluating ((init ++ [last]).head (by simp)), env,
        seqStack env (init ++ [last]) 1 stack⟩ h := by
    match init with
    | [] => rfl
    | [_] => rfl
    | _ :: _ :: _ => simp [step, visit, seqStack, pure, EStateM.pure]
  exact ⟨s', (climbs.visit hs (by omega)).congr (by omega) (by omega), returned⟩

theorem costs_letNone (cost : Costs table body env h v h' c p) :
    Costs table (.letIn [] [] body) env h v h' (1 + c) p := by
  intro stack
  obtain ⟨s', climbs, returned⟩ := cost stack
  exact ⟨s', (climbs.visit rfl (by omega)).congr (by omega) (by omega), returned⟩

/-- A step that turns to the first of some parts, the parts, and the step that uses
their values. -/
theorem climbs_parts {parts : List Expr} {frame : List Value → Kont}
    {finish : List Value → Stack → Action State} {stack : Stack}
    (gathers : Gathers table env parts frame finish) (hne : parts ≠ []) (running : s.Running)
    (hs : step table s h = .ok ⟨.evaluating (parts.head hne), env, stack.push (frame [])⟩ h₁)
    (hdepth : s.stack.depth ≤ stack.depth + 1)
    (turn : InTurn (Costs table) parts env h₁ vs h₂ cs ps)
    (hfinish : finish vs stack h₂ = .ok s' h₃) :
    Climbs table (1 + parts.length + cs) (stack.depth + ps) s h s' h₃ := by
  obtain ⟨first, rest, rfl⟩ := List.exists_cons_of_ne_nil hne
  obtain ⟨s₁, climbs, ready, hdepth₁⟩ := gathers.climbs stack [] [] first rest rfl rfl turn
  have hready : step table s₁ h₂ = .ok s' h₃ := by
    rw [ready.2]
    exact hfinish
  have whole := Climbs.step running hs (climbs.trans (.one ready.1 hready))
  have hroom := turn.one_le
  refine whole.congr ?_ (by omega)
  rw [List.length_cons]
  omega

theorem costs_letIn (hlength : names.length = inits.length) (hne : inits ≠ [])
    (turn : InTurn (Costs table) inits env h vs h₁ cs ps)
    (hinner : Env.extend env names vs h₁ = .ok inner h₂)
    (cost : Costs table body inner h₂ v h' c p) :
    Costs table (.letIn names inits body) env h v h' (1 + inits.length + cs + c) (max ps p) := by
  intro stack
  have hs : step table ⟨.evaluating (.letIn names inits body), env, stack⟩ h =
      .ok ⟨.evaluating (inits.head hne), env, stack.push (.letIn env names inits body [])⟩ h := by
    obtain ⟨first, rest, rfl⟩ := List.exists_cons_of_ne_nil hne
    simp only [step, visit]
    rw [if_neg (not_not_intro hlength)]
    rfl
  have climbs := climbs_parts (gathers_letIn table env names inits body) hne
    State.running_evaluating hs (Nat.le_succ _) turn (bind_eq_ok_iff.mpr ⟨inner, h₂, hinner, rfl⟩)
  obtain ⟨s', rest, returned⟩ := cost stack
  exact ⟨s', (climbs.trans rest).congr rfl (by omega), returned⟩

theorem costs_letRec (hlength : names.length = inits.length) (hne : inits ≠ [])
    (hinner : Env.extend env names (names.map fun _ => .undefined) h = .ok inner h₁)
    (turn : InTurn (Costs table) inits inner h₁ vs h₂ cs ps)
    (hassigned : Env.assignAll inner (names.zip vs) h₂ = .ok () h₃)
    (cost : Costs table body inner h₃ v h' c p) :
    Costs table (.letRec names inits body) env h v h' (1 + inits.length + cs + c) (max ps p) := by
  intro stack
  have hs : step table ⟨.evaluating (.letRec names inits body), env, stack⟩ h =
      .ok ⟨.evaluating (inits.head hne), inner,
        stack.push (.letRec inner names inits body [])⟩ h₁ := by
    obtain ⟨first, rest, rfl⟩ := List.exists_cons_of_ne_nil hne
    simp only [step, visit]
    rw [if_neg (not_not_intro hlength)]
    exact bind_eq_ok_iff.mpr ⟨inner, h₁, hinner, rfl⟩
  have climbs := climbs_parts (gathers_letRec table inner names inits body) hne
    State.running_evaluating hs (Nat.le_succ _) turn (bind_eq_ok_iff.mpr ⟨(), h₃, hassigned, rfl⟩)
  obtain ⟨s', rest, returned⟩ := cost stack
  exact ⟨s', (climbs.trans rest).congr rfl (by omega), returned⟩

theorem costs_primApp {name : Name} (turn : InTurn (Costs table) rands env h vs h₁ cs ps)
    (happly : table.apply name vs h₁ = .ok v h') :
    Costs table (.primApp name rands) env h v h' (1 + rands.length + cs) ps := by
  intro stack
  have hfinish : applyPrimitive table name vs env stack h₁ = .ok ⟨.returning v, env, stack⟩ h' :=
    bind_eq_ok_iff.mpr ⟨v, h', happly, rfl⟩
  cases rands with
  | nil =>
      cases turn
      exact ⟨_, Climbs.one State.running_evaluating hfinish, env, rfl⟩
  | cons first rest =>
      have hs : step table ⟨.evaluating (.primApp name (first :: rest)), env, stack⟩ h =
          .ok ⟨.evaluating first, env, stack.push (.primApp env name (first :: rest) [])⟩ h := rfl
      have climbs := climbs_parts (gathers_primApp table env name (first :: rest))
        (List.cons_ne_nil first rest) State.running_evaluating hs (Nat.le_succ _) turn hfinish
      exact ⟨_, climbs, env, rfl⟩

theorem costs_app {rator : Expr} {f : Closure}
    (rator' : Costs table rator env h (.procedure f) h₁ c' p')
    (turn : InTurn (Costs table) rands env h₁ vs h₂ cs ps) (hlength : vs.length = f.params.length)
    (hinner : Env.extend f.env f.params vs h₂ = .ok inner h₃)
    (cost : Costs table f.body inner h₃ v h' c p) :
    Costs table (.app rator rands) env h v h' (2 + rands.length + c' + cs + c)
      (max (1 + p') (max ps p)) := by
  intro stack
  obtain ⟨s₁, first, env', rfl⟩ := rator' (stack.push (.operator env rands))
  obtain ⟨s', rest, returned⟩ := cost stack
  have hfinish : applyProcedure (.procedure f) vs stack h₂ =
      .ok ⟨.evaluating f.body, inner, stack⟩ h₃ := by
    simp only [applyProcedure]
    rw [if_pos hlength]
    exact bind_eq_ok_iff.mpr ⟨inner, h₃, hinner, rfl⟩
  -- from the value of the operator to the body
  have call : Climbs table (1 + rands.length + cs) (stack.depth + max 1 ps)
      ⟨.returning (.procedure f), env', stack.push (.operator env rands)⟩ h₁
      ⟨.evaluating f.body, inner, stack⟩ h₃ := by
    cases rands with
    | nil =>
        cases turn
        have hs : step table ⟨.returning (.procedure f), env', stack.push (.operator env [])⟩ h₁ =
            .ok ⟨.evaluating f.body, inner, stack⟩ h₃ := by
          rw [step_returning]
          exact hfinish
        exact .one State.running_returning hs
    | cons e es =>
        have hs : step table ⟨.returning (.procedure f), env', stack.push (.operator env (e :: es))⟩
            h₁ = .ok ⟨.evaluating e, env, stack.push (.operand env (e :: es) (.procedure f) [])⟩
              h₁ := by
          rw [step_returning]
          rfl
        have climbs := climbs_parts (gathers_operand table env (e :: es) (.procedure f))
          (List.cons_ne_nil e es) State.running_returning hs (Nat.le_refl _) turn hfinish
        have hroom := turn.one_le
        exact climbs.congr rfl (by omega)
  have below := first.trans (call.trans rest)
  simp only [Stack.depth_push] at below
  exact ⟨s', (below.visit rfl (by omega)).congr (by omega) (by omega), returned⟩

mutual

/-- The machine takes the steps and frames that the rules say. Induction on the
derivation. -/
theorem costs_of_evaluates {e : Expr} {env : Env} {h h' : Heap} {v : Value} {c p : Nat} :
    Evaluates table e env h v h' c p → Costs table e env h v h' c p
  | .datum => costs_of_visit fun _ => rfl
  | .ref hx => costs_of_visit fun _ => bind_eq_ok_iff.mpr ⟨_, _, hx, rfl⟩
  | .lambda hf => costs_of_visit fun _ => bind_eq_ok_iff.mpr ⟨_, _, hf, rfl⟩
  | .cond test branch => costs_cond (costs_of_evaluates test) (costs_of_evaluates branch)
  | .assign rhs hx => costs_assign (costs_of_evaluates rhs) hx
  | .seq init last => costs_seq (costs_of_inTurn init) (costs_of_evaluates last)
  | .letNone body => costs_letNone (costs_of_evaluates body)
  | .letIn hlength hne inits hinner body =>
      costs_letIn hlength hne (costs_of_inTurn inits) hinner (costs_of_evaluates body)
  | .letRec hlength hne hinner inits hassigned body =>
      costs_letRec hlength hne hinner (costs_of_inTurn inits) hassigned (costs_of_evaluates body)
  | .primApp rands happly => costs_primApp (costs_of_inTurn rands) happly
  | .app rator rands hlength hinner body =>
      costs_app (costs_of_evaluates rator) (costs_of_inTurn rands) hlength hinner
        (costs_of_evaluates body)

theorem costs_of_inTurn {es : List Expr} {env : Env} {h h' : Heap} {vs : List Value}
    {cs ps : Nat} : InTurn (Evaluates table) es env h vs h' cs ps →
      InTurn (Costs table) es env h vs h' cs ps
  | .nil => .nil
  | .cons first rest => .cons (costs_of_evaluates first) (costs_of_inTurn rest)

end

end Machine

namespace Evaluation

variable {α : Type} {a : Action α} {x : α} {h h' : Heap}

theorem perform_eq_ok_iff : perform a h = .ok x h' ↔ a h = .ok x h' := by
  unfold perform
  split <;> simp [*]

theorem call_eq_ok {eval : Expr → Env → Evaluation Value} {operator v : Value} {args : List Value}
    (result : call eval operator args h = .ok v h') :
    ∃ f inner h₁, operator = .procedure f ∧ args.length = f.params.length ∧
      Env.extend f.env f.params args h = .ok inner h₁ ∧ eval f.body inner h₁ = .ok v h' := by
  unfold call at result
  split at result
  · rename_i f
    split at result
    · rename_i hlength
      obtain ⟨inner, h₁, hinner, result⟩ := bind_eq_ok_iff.mp result
      exact ⟨f, inner, h₁, rfl, hlength, perform_eq_ok_iff.mp hinner, result⟩
    · cases result
  · cases result

end Evaluation

namespace Expr

variable {table : Table} {fuel : Nat} {e : Expr} {es : List Expr} {env : Env} {h h' : Heap}
variable {v : Value} {vs : List Value}

/-- With this fuel, whatever has a value has a derivation. -/
def Derivable (table : Table) (fuel : Nat) : Prop :=
  ∀ {e : Expr} {env : Env} {h h' : Heap} {v : Value}, e.eval table fuel env h = .ok v h' →
    ∃ c p, Evaluates table e env h v h' c p

theorem Derivable.inTurn (derivable : Derivable table fuel)
    (result : es.mapM (fun e => e.eval table fuel env) h = .ok vs h') :
    ∃ cs ps, InTurn (Evaluates table) es env h vs h' cs ps := by
  induction es generalizing h vs with
  | nil =>
      cases result
      exact ⟨0, 0, .nil⟩
  | cons e es ih =>
      rw [List.mapM_cons] at result
      obtain ⟨v, h₁, hv, result⟩ := bind_eq_ok_iff.mp result
      obtain ⟨vs, h₂, hvs, result⟩ := bind_eq_ok_iff.mp result
      cases result
      obtain ⟨c, p, first⟩ := derivable hv
      obtain ⟨cs, ps, rest⟩ := ih hvs
      exact ⟨_, _, .cons first rest⟩

theorem Derivable.seq (derivable : Derivable table fuel)
    (result : (Expr.seq es).eval table (fuel + 1) env h = .ok v h') :
    ∃ c p, Evaluates table (.seq es) env h v h' c p := by
  rw [eval] at result
  obtain ⟨values, h₁, hvalues, result⟩ := bind_eq_ok_iff.mp result
  rcases es.eq_nil_or_concat with rfl | ⟨init, last, rfl⟩
  · cases hvalues
    cases result
  · rw [List.concat_eq_append] at hvalues ⊢
    rw [List.mapM_append] at hvalues
    obtain ⟨vs, h₂, hinit, hvalues⟩ := bind_eq_ok_iff.mp hvalues
    obtain ⟨ws, h₃, hlast, hvalues⟩ := bind_eq_ok_iff.mp hvalues
    rw [List.mapM_cons] at hlast
    obtain ⟨w, h₄, hlast, hnil⟩ := bind_eq_ok_iff.mp hlast
    cases hnil
    cases hvalues
    rw [List.getLast?_append] at result
    cases result
    obtain ⟨cs, ps, init⟩ := derivable.inTurn hinit
    obtain ⟨c, p, last⟩ := derivable hlast
    exact ⟨_, _, .seq init last⟩

theorem Derivable.letIn (derivable : Derivable table fuel) {names : List Name} {body : Expr}
    (result : (Expr.letIn names es body).eval table (fuel + 1) env h = .ok v h') :
    ∃ c p, Evaluates table (.letIn names es body) env h v h' c p := by
  unfold eval at result
  split at result
  · cases result
  · rename_i hlength
    have hlength := Decidable.of_not_not hlength
    cases es with
    | nil =>
        obtain rfl := List.eq_nil_of_length_eq_zero hlength
        obtain ⟨c, p, body⟩ := derivable result
        exact ⟨_, _, .letNone body⟩
    | cons first rest =>
        obtain ⟨vs, h₁, hvs, result⟩ := bind_eq_ok_iff.mp result
        obtain ⟨inner, h₂, hinner, result⟩ := bind_eq_ok_iff.mp result
        obtain ⟨cs, ps, inits⟩ := derivable.inTurn hvs
        obtain ⟨c, p, body⟩ := derivable result
        exact ⟨_, _, .letIn hlength (List.cons_ne_nil first rest) inits
          (perform_eq_ok_iff.mp hinner) body⟩

theorem Derivable.letRec (derivable : Derivable table fuel) {names : List Name} {body : Expr}
    (result : (Expr.letRec names es body).eval table (fuel + 1) env h = .ok v h') :
    ∃ c p, Evaluates table (.letRec names es body) env h v h' c p := by
  unfold eval at result
  split at result
  · cases result
  · rename_i hlength
    have hlength := Decidable.of_not_not hlength
    cases es with
    | nil => cases result
    | cons first rest =>
        obtain ⟨inner, h₁, hinner, result⟩ := bind_eq_ok_iff.mp result
        obtain ⟨vs, h₂, hvs, result⟩ := bind_eq_ok_iff.mp result
        obtain ⟨u, h₃, hassigned, result⟩ := bind_eq_ok_iff.mp result
        obtain ⟨cs, ps, inits⟩ := derivable.inTurn hvs
        obtain ⟨c, p, body⟩ := derivable result
        exact ⟨_, _, .letRec hlength (List.cons_ne_nil first rest)
          (perform_eq_ok_iff.mp hinner) inits (perform_eq_ok_iff.mp hassigned) body⟩

/-- Induction on the fuel, one construct after the other. -/
theorem derivable (table : Table) (fuel : Nat) : Derivable table fuel := by
  induction fuel with
  | zero =>
      intro e env h h' v result
      cases result
  | succ fuel ih =>
      intro e env h h' v result
      cases e with
      | datum d =>
          cases result
          exact ⟨_, _, .datum⟩
      | ref x => exact ⟨_, _, .ref (perform_eq_ok_iff.mp result)⟩
      | lambda params body =>
          obtain ⟨f, h₁, hf, result⟩ := bind_eq_ok_iff.mp result
          cases result
          exact ⟨_, _, .lambda (perform_eq_ok_iff.mp hf)⟩
      | cond test conseq alt =>
          obtain ⟨u, h₁, hu, result⟩ := bind_eq_ok_iff.mp result
          obtain ⟨c, p, test⟩ := ih hu
          have hbranch :
              (if u.isTruthy then conseq else alt).eval table fuel env h₁ = .ok v h' := by
            split at result <;> simp_all [Value.isTruthy]
          obtain ⟨c', p', branch⟩ := ih hbranch
          exact ⟨_, _, .cond test branch⟩
      | assign x rhs =>
          obtain ⟨u, h₁, hu, result⟩ := bind_eq_ok_iff.mp result
          obtain ⟨⟨⟩, h₂, hx, result⟩ := bind_eq_ok_iff.mp result
          cases result
          obtain ⟨c, p, rhs⟩ := ih hu
          exact ⟨_, _, .assign rhs (perform_eq_ok_iff.mp hx)⟩
      | seq body => exact ih.seq result
      | letIn names inits body => exact ih.letIn result
      | letRec names inits body => exact ih.letRec result
      | primApp name rands =>
          obtain ⟨vs, h₁, hvs, result⟩ := bind_eq_ok_iff.mp result
          obtain ⟨cs, ps, rands⟩ := ih.inTurn hvs
          exact ⟨_, _, .primApp rands (perform_eq_ok_iff.mp result)⟩
      | app rator rands =>
          obtain ⟨operator, h₁, hoperator, result⟩ := bind_eq_ok_iff.mp result
          obtain ⟨vs, h₂, hvs, result⟩ := bind_eq_ok_iff.mp result
          obtain ⟨f, inner, h₃, rfl, hlength, hinner, result⟩ := call_eq_ok result
          obtain ⟨c₀, p₀, rator⟩ := ih hoperator
          obtain ⟨cs, ps, rands⟩ := ih.inTurn hvs
          obtain ⟨c, p, body⟩ := ih result
          exact ⟨_, _, .app rator rands hlength hinner body⟩

end Expr

namespace Machine

open CoreLisp.Expr (Evaluates derivable)

variable {table : Table} {e : Expr} {env : Env} {h h' : Heap} {v : Value} {c p fuel : Nat}
variable {stats : Stats}

/-- The last step takes the end of the program off the stack. -/
theorem climbs_program (ev : Evaluates table e env h v h' c p) :
    ∃ s', Climbs table (c + 1) (1 + p) (.initial e env) h s' h' ∧ s'.control = .halted v := by
  obtain ⟨s₁, climbs, env', rfl⟩ := costs_of_evaluates ev (Stack.empty.push (.halt env))
  have hs : step table ⟨.returning v, env', Stack.empty.push (.halt env)⟩ h' =
      .ok ⟨.halted v, env, Stack.empty⟩ h' := by
    rw [step_returning]
    rfl
  have whole := climbs.trans (.one State.running_returning hs)
  have hdepth : (Stack.empty.push (.halt env)).depth = 1 := rfl
  rw [hdepth] at whole
  exact ⟨_, whole.congr rfl (by omega), rfl⟩

theorem ends_of_evaluates (ev : Evaluates table e env h v h' c p) :
    Ends table (c + 1) (.initial e env) h (.ok v h') := by
  obtain ⟨s', climbs, hv⟩ := climbs_program ev
  exact climbs.steps.ends (.halted h' hv)

theorem evaluates_iff_eval (table : Table) (e : Expr) (env : Env) (h : Heap) (v : Value)
    (h' : Heap) : (∃ c p, Evaluates table e env h v h' c p) ↔
      ∃ fuel, e.eval table fuel env h = .ok v h' := by
  constructor
  · intro derived
    obtain ⟨c, p, ev⟩ := derived
    exact ⟨c + 2, eval_of_ends (ends_of_evaluates ev) (Nat.lt_succ_self _)⟩
  · intro result
    obtain ⟨fuel, result⟩ := result
    exact derivable table fuel result

/-- The run of an expression that has a value ends with the counters that the rules
give. -/
theorem runWith_of_evaluates (ev : Evaluates table e env h v h' c p) (enough : c + 1 ≤ fuel) :
    runWith table (fun s _ => Stats.count s.stack.depth) fuel {} (.initial e env) h =
      some (⟨c + 1, 1 + p⟩, .ok v h') := by
  obtain ⟨s', climbs, hv⟩ := climbs_program ev
  obtain ⟨more, rfl⟩ := Nat.exists_eq_add_of_le enough
  have run := climbs.runWith more {}
  rw [runWith_halted hv] at run
  simp only [Nat.zero_add, Nat.zero_max] at run
  exact run

theorem evaluates_of_runWith
    (run : runWith table (fun s _ => Stats.count s.stack.depth) fuel {} (.initial e env) h =
      some (stats, .ok v h')) :
    ∃ c p, Evaluates table e env h v h' c p ∧ stats = ⟨c + 1, 1 + p⟩ := by
  obtain ⟨n, enough, ending⟩ := ends_of_runWith run
  obtain ⟨c, p, ev⟩ := derivable table _ (eval_of_ends ending (Nat.lt_succ_self n))
  obtain ⟨rfl, -⟩ := ending.unique (ends_of_evaluates ev)
  rw [runWith_of_evaluates ev enough] at run
  cases run
  exact ⟨c, p, ev, rfl⟩

end Machine

namespace Session

open CoreLisp.Expr (Evaluates)

theorem evaluate_eq_some_iff {s : Session} {fuel : Nat} {e : Expr} {h : Heap}
    {answer : Answer EvalError} : s.evaluate fuel e h = some answer ↔
      ∃ stats ending, Machine.evaluate s.table fuel e h = some (stats, ending) ∧
        s.answer stats ending = answer := by
  constructor
  · intro run
    obtain ⟨⟨stats, ending⟩, ended, hanswer⟩ := Option.bind_eq_some_iff.mp run
    exact ⟨stats, ending, ended, Option.some.inj hanswer⟩
  · rintro ⟨stats, ending, ended, rfl⟩
    exact Option.bind_eq_some_iff.mpr ⟨_, ended, rfl⟩

/-- When a program ends with a value, the statistics of the run are those that the
rules give for its evaluation from the empty environment, and one step and one frame
for the end of the program. The rules give the values of direct evaluation. -/
theorem last_run_cost (s : Session) (e : Expr) (h : Heap) :
    (∀ fuel answer v, s.evaluate fuel e h = some answer → answer.result = .ok v →
      ∃ c p, Evaluates s.table e h.newRoot.1 h.newRoot.2 v answer.heap c p ∧
        answer.session.lastRun = ⟨c + 1, 1 + p⟩) ∧
    (∀ v h' c p, Evaluates s.table e h.newRoot.1 h.newRoot.2 v h' c p → ∀ fuel, c + 1 ≤ fuel →
      s.evaluate fuel e h = some ⟨.ok v, { s with lastRun := ⟨c + 1, 1 + p⟩ }, h'⟩) ∧
    (∀ env h v h', (∃ c p, Evaluates s.table e env h v h' c p) ↔
      ∃ fuel, e.eval s.table fuel env h = .ok v h') := by
  refine ⟨?_, ?_, fun env h v h' => Machine.evaluates_iff_eval s.table e env h v h'⟩
  · intro fuel answer v run hv
    obtain ⟨stats, ending, ended, rfl⟩ := evaluate_eq_some_iff.mp run
    cases ending with
    | ok w h' =>
        cases hv
        exact Machine.evaluates_of_runWith ended
    | error e h' => cases hv
  · intro v h' c p ev fuel enough
    exact evaluate_eq_some_iff.mpr ⟨_, _, Machine.runWith_of_evaluates ev enough, rfl⟩

/-- A call whose body is a sequence: the operator and the operand wait on one frame
each, the operand of the primitive on those of the sequence and of the primitive. -/
theorem last_run_cost_call :
    Evaluates .standard
      (.app (.lambda ["x"] (.seq [.primApp "box" [.datum (.integer 1)], .datum (.integer 2)]))
        [.datum (.integer 7)])
      (Heap.newRoot {}).1 (Heap.newRoot {}).2 (.integer 2)
      ⟨#[⟨[], none⟩, ⟨[("x", .integer 7)], some 0⟩], #[.integer 1], 1⟩ 11 2 := by
  have run : ({} : Session).evaluate 12
      (.app (.lambda ["x"] (.seq [.primApp "box" [.datum (.integer 1)], .datum (.integer 2)]))
        [.datum (.integer 7)]) {} =
      some ⟨.ok (.integer 2), { lastRun := ⟨12, 3⟩ },
        ⟨#[⟨[], none⟩, ⟨[("x", .integer 7)], some 0⟩], #[.integer 1], 1⟩⟩ := rfl
  obtain ⟨c, p, ev, hstats⟩ := (last_run_cost {} _ _).1 12 _ _ run rfl
  obtain ⟨hc, hp⟩ := Stats.mk.inj hstats
  obtain rfl : c = 11 := by omega
  obtain rfl : p = 2 := by omega
  exact ev

end Session

end CoreLisp
