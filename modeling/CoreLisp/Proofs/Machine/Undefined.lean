import CoreLisp.Proofs.Machine.Scope
import CoreLisp.Proofs.Machine.Shape

/-!
# Recursive procedures are never found undefined

A recursive binding makes its frame before the values that belong into it, and until
then the cells of the frame are undefined. If all initializers are lambda expressions,
nothing looks into the frame meanwhile: each initializer gives a procedure in one step,
and after the last of them all cells are overwritten. So the invariant has two phases.
Either nothing is undefined anywhere, or the frame on top of the stack is that of a
recursive binding and the undefined cells are in the one frame of the heap that it is
about to fill.
-/
namespace CoreLisp

variable {p : Expr → Prop} {q : Value → Prop} {m : Mark} {e : Expr} {h h' : Heap} {s s' : State}

/-- The datum is not `#undefined`, and the initializers are lambda expressions. -/
def Expr.Settled : Expr → Prop
  | .datum d => d ≠ .undefined
  | .letRec _ inits _ => ∀ init ∈ inits, ∃ params body, init = .lambda params body
  | _ => True

/-- The state is at an initializer of the recursive binding with this frame: it is about
to evaluate the initializer, or has got its value. -/
def State.Initializes (s : State) (place : Env) : Prop :=
  ∃ names inits body values, s.stack.frames.head? = some (.letRec place names inits body values) ∧
    ∃ init, inits[values.length]? = some init ∧
      (s.control = .evaluating init ∨ ∃ v, s.control = .returning v)

/-- What is undefined behind the mark is a cell that is about to be initialized. -/
structure State.Hides (m : Mark) (s : State) (h : Heap) : Prop where
  values : ∀ v ∈ s.values, v ≠ .undefined
  boxes : ∀ ref v, m.boxes ≤ ref → h.boxes[ref]? = some v → v ≠ .undefined
  cells : ∀ place f, m.frames ≤ place → h.frames[place]? = some f →
    f.All (· ≠ .undefined) ∨ s.Initializes place

namespace Env

variable {env : Env} {x : Name} {v : Value} {f : Frame} {u : Unit}

/-- Values for all names of a frame take the place of those that the frame held, and
nothing else changes. Induction on the assignments: a cell of the frame has one of the
new values already, or its name is still to come. -/
theorem assignAll_fills {bindings : List (Name × Value)} (hf : h.frames[env]? = some f)
    (bound : ∀ b ∈ bindings, b.1 ∈ f.names) (hvalues : ∀ b ∈ bindings, q b.2)
    (covered : ∀ b ∈ f.bindings, b.1 ∈ bindings.map (·.1) ∨ q b.2)
    (ok : env.assignAll bindings h = .ok u h') :
    (∀ f', h'.frames[env]? = some f' → f'.All q) ∧
      (∀ i, i ≠ env → h'.frames[i]? = h.frames[i]?) ∧ h'.boxes = h.boxes := by
  induction bindings generalizing h f with
  | nil =>
      cases ok
      refine ⟨?_, fun _ _ => rfl, rfl⟩
      intro f' hf'
      rw [hf] at hf'
      cases hf'
      intro b hb
      exact (covered b hb).resolve_left List.not_mem_nil
  | cons b rest ih =>
      obtain ⟨x, v⟩ := b
      obtain ⟨hx, bound⟩ := List.forall_mem_cons.mp bound
      obtain ⟨hv, hvalues⟩ := List.forall_mem_cons.mp hvalues
      obtain ⟨_, h₁, first, later⟩ := Action.bind_eq_ok_iff.mp ok
      rw [assign_own_frame hf hx] at first
      cases first
      have hset : (h.rebind env x v).frames[env]? = some (f.set x v) := by
        rw [Heap.frames_rebind, Array.getElem?_modify, if_pos rfl, hf, Option.map_some]
      have covered' : ∀ b ∈ (f.set x v).bindings, b.1 ∈ rest.map (·.1) ∨ q b.2 := by
        intro b hb
        obtain ⟨old, hold, rfl⟩ := List.mem_map.mp hb
        by_cases hname : old.1 = x
        · rw [if_pos hname]
          exact .inr hv
        · rw [if_neg hname]
          refine (covered old hold).imp_left fun mem => ?_
          exact (List.mem_cons.mp mem).resolve_left hname
      obtain ⟨filled, others, boxes⟩ := ih hset (by simpa using bound) hvalues covered' later
      refine ⟨filled, ?_, boxes⟩
      intro i hi
      rw [others i hi, Heap.frames_rebind, Array.getElem?_modify, if_neg (Ne.symm hi)]

end Env

namespace Machine

/-- Of what a step supplies, only the datum `#undefined` and the placeholders of a
recursive binding are undefined. -/
theorem supplies_defined (own : s.Own Expr.Settled m)
    (other : ∀ names inits body, s.control ≠ .evaluating (.letRec names inits body)) :
    Supplies (· ≠ .undefined) s h h' where
  datum d hd := by
    have settled : d ≠ .undefined := by
      have code := own.control
      rw [hd] at code
      exact code.self
    cases d with
    | undefined => exact absurd rfl settled
    | _ => nofun
  unit := nofun
  placeholder names inits body here := absurd here (other names inits body)
  primitive b args v hb applied _ := by
    cases applied with
    | unbox => exact absurd rfl hb
    | _ => nofun
  box _ _ := nofun
  procedure _ _ _ := nofun

/-- With the value of the last initializer there are values for all names of the frame. -/
theorem fills_of_last {program body : Expr} {place : Env} {names : List Name} {inits : List Expr}
    {values : List Value} {v : Value} {u : Unit}
    (waiting : (Kont.letRec place names inits body values).Waiting)
    (stands : (Kont.letRec place names inits body values).Stands program h)
    (hlast : inits[values.length + 1]? = none) (hvalues : ∀ w ∈ values ++ [v], q w)
    (ok : Env.assignAll place (names.zip (values ++ [v])) h = .ok u h') :
    (∀ f, h'.frames[place]? = some f → f.All q) ∧
      (∀ i, i ≠ place → h'.frames[i]? = h.frames[i]?) ∧ h'.boxes = h.boxes := by
  obtain ⟨_, -, frame, hframe, hnames, -⟩ := stands.enters_letRec
  have enough : names.length ≤ (values ++ [v]).length :=
    Nat.le_of_eq (waiting.length_of_last hlast)
  refine Env.assignAll_fills hframe ?_ ?_ ?_ ok
  · intro b hb
    exact hnames ▸ (List.of_mem_zip hb).1
  · intro b hb
    exact hvalues b.2 (List.of_mem_zip hb).2
  · intro b hb
    rw [List.map_fst_zip enough, ← hnames]
    exact .inl (List.mem_map_of_mem hb)

/-- From a state in which nothing is undefined. -/
theorem Transition.hides_of_defined (t : Transition .standard s h s' h')
    (own : s.Own Expr.Settled m) (hown : h.Own Expr.Settled m)
    (hs : ∀ v ∈ s.values, v ≠ .undefined) (all : h.All (· ≠ .undefined) m) : s'.Hides m h' := by
  by_cases here : ∃ names inits body, s.control = .evaluating (.letRec names inits body)
  · obtain ⟨names, inits, body, here⟩ := here
    obtain ⟨control, env, stack⟩ := s
    cases here
    cases t with
    | letRecFirst _ hx =>
        obtain ⟨-, -, rfl, rfl⟩ := Env.extend_eq_ok_iff.mp hx
        refine ⟨hs, all.boxes, ?_⟩
        intro place f hplace hf
        rw [Heap.frames_addFrame, Array.getElem?_push] at hf
        split at hf
        · rename_i hnew
          subst hnew
          exact .inr ⟨_, _, _, [], rfl, _, rfl, .inl rfl⟩
        · exact .inl (all.frames place f hplace hf)
  · have other : ∀ names inits body, s.control ≠ .evaluating (.letRec names inits body) :=
      fun names inits body hcontrol => here ⟨names, inits, body, hcontrol⟩
    obtain ⟨values, all⟩ := t.values_of_supplies (supplies_defined own other) own hown hs all
    exact ⟨values, all.boxes, fun place f hplace hf => .inl (all.frames place f hplace hf)⟩

/-- From a state at an initializer. This is a lambda expression or its value, and the
value of the last initializer comes with those of all others. -/
theorem Transition.hides_of_initializes {program : Expr} {place : Env}
    (t : Transition .standard s h s' h') (own : s.Own Expr.Settled m) (shaped : s.Shaped)
    (stands : ∀ k ∈ s.stack.frames, k.Stands program h) (hides : s.Hides m h)
    (here : s.Initializes place) : s'.Hides m h' := by
  obtain ⟨names, inits, body, values, htop, init, hinit, hcontrol⟩ := here
  have only : ∀ place', s.Initializes place' → place' = place := by
    intro place' here'
    obtain ⟨_, _, _, _, htop', -⟩ := here'
    rw [htop] at htop'
    cases htop'
    rfl
  obtain ⟨control, env, stack⟩ := s
  rcases hcontrol with rfl | ⟨v, rfl⟩
  · have code := (own.stack _ (List.mem_of_head? htop)).code _ List.mem_cons_self
    obtain ⟨params, lambdaBody, rfl⟩ := code.self init (List.mem_of_getElem? hinit)
    cases t with
    | lambda hf =>
        cases hf
        refine ⟨List.forall_mem_cons.mpr ⟨nofun, hides.values⟩, hides.boxes, ?_⟩
        intro place' f hplace hf
        refine (hides.cells place' f hplace hf).imp_right fun here' => ?_
        obtain rfl := only place' here'
        exact ⟨names, inits, body, values, htop, _, hinit, .inr ⟨_, rfl⟩⟩
  · cases t with
    | letRecNext hnext =>
        cases htop
        obtain ⟨hv, hvalues, hbelow⟩ := State.forall_values_returning.mp hides.values
        have hvalues := forall_mem_snoc hvalues hv
        refine ⟨State.forall_values_evaluating.mpr ⟨hvalues, hbelow⟩, hides.boxes, ?_⟩
        intro place' f hplace hf
        refine (hides.cells place' f hplace hf).imp_right fun here' => ?_
        obtain rfl := only place' here'
        exact ⟨_, _, _, _, rfl, _, by simpa using hnext, .inl rfl⟩
    | letRecDone hlast hx =>
        cases htop
        obtain ⟨hv, hvalues, hbelow⟩ := State.forall_values_returning.mp hides.values
        obtain ⟨waiting, -⟩ := Stack.Shaped.below shaped rfl
        obtain ⟨filled, others, boxes⟩ := fills_of_last waiting (stands _ List.mem_cons_self) hlast
          (forall_mem_snoc hvalues hv) hx
        refine ⟨hbelow, boxes ▸ hides.boxes, ?_⟩
        intro place' f hplace hf
        by_cases hsame : place' = place
        · subst hsame
          exact .inl (filled f hf)
        · rw [others place' hsame] at hf
          refine .inl ((hides.cells place' f hplace hf).resolve_right fun here' => ?_)
          exact hsame (only place' here')
    | _ => cases htop

theorem Transition.hides {program : Expr} (t : Transition .standard s h s' h')
    (own : s.Own Expr.Settled m) (hown : h.Own Expr.Settled m) (shaped : s.Shaped)
    (stands : ∀ k ∈ s.stack.frames, k.Stands program h) (hides : s.Hides m h) :
    s'.Hides m h' := by
  by_cases here : ∃ place, s.Initializes place
  · obtain ⟨place, here⟩ := here
    exact t.hides_of_initializes own shaped stands hides here
  · refine t.hides_of_defined own hown hides.values ⟨?_, hides.boxes⟩
    intro place f hplace hf
    exact (hides.cells place f hplace hf).resolve_right fun initializes => here ⟨place, initializes⟩

theorem Reachable.hides (settled : e.Everywhere Expr.Settled)
    (reached : Reachable .standard e h s h') : s.Hides h.mark h' := by
  refine reached.induction (P := fun s h' => s.Hides h.mark h') ?_ ?_
  · have behind := Heap.Each.at_mark (Frame.All (· ≠ .undefined)) (· ≠ .undefined) h
    have root : h.newRoot.2.All (· ≠ .undefined) h.mark := behind.addFrame (List.forall_mem_nil _)
    refine ⟨List.forall_mem_nil _, root.boxes, ?_⟩
    intro place f hplace hf
    exact .inl (root.frames place f hplace hf)
  · intro s s' h₁ h₂ reached hs hides
    obtain ⟨own, hown⟩ := reached.own (Table.standard_keeps _ _) settled
    exact (step_eq_ok_iff.mp hs).hides own hown reached.shaped reached.stands.1.frames hides

/-- Only opening a box that holds the undefined value finds a value undefined. -/
theorem Failure.undefinedAccess (fail : Failure .standard s h .undefinedAccess h') :
    ∃ ref, .box ref ∈ s.values ∧ h.contents ref = .undefined := by
  generalize he : EvalError.undefinedAccess = err at fail
  cases fail with
  | seqEmpty | letLengths | letRecLengths | letRecEmpty | exhausted => cases he
  | ref hx =>
      obtain ⟨-, -, rfl⟩ := Env.lookup_eq_error_iff.mp hx
      cases he
  | assigned hx =>
      obtain ⟨-, -, rfl⟩ := Env.assign_eq_error_iff.mp hx
      cases he
  | letRecFirst _ hx | letDone _ hx =>
      obtain ⟨-, ⟨-, rfl⟩ | ⟨-, -, rfl⟩⟩ := Env.extend_eq_error_iff.mp hx <;> cases he
  | letRecDone _ hx =>
      obtain ⟨x, rfl⟩ := Env.assignAll_error hx
      cases he
  | callNone hx | call _ hx =>
      obtain ⟨n, m, rfl⟩ | ⟨d, rfl⟩ | ⟨f, -, -, rfl⟩ := applyProcedure_error hx <;> cases he
  | primNone hx =>
      subst he
      obtain ⟨-, he | ⟨b, refusal⟩⟩ := Table.apply_standard_error hx
      · cases he
      · cases refusal with
        | undefined hargs => cases hargs
  | primDone _ hx =>
      subst he
      obtain ⟨-, he | ⟨b, refusal⟩⟩ := Table.apply_standard_error hx
      · cases he
      · cases refusal with
        | @undefined ref hargs hcontents =>
            refine ⟨ref, ?_, hcontents⟩
            have mem := hargs.symm ▸ List.mem_cons_self (a := Value.box ref) (l := [])
            simp only [State.values, Control.values, Stack.frames_push, List.flatMap_cons,
              Kont.values, List.mem_append, List.mem_singleton] at mem ⊢
            tauto

/-- If no datum of a program is `#undefined` and all initializers of its recursive bindings
are lambda expressions, then in every state of its run no value that the state holds is
undefined, be it returned, gathered as an argument or the last one, and no box is. A
cell of an environment is undefined only in the frame of the recursive binding on top of
the stack, while an initializer is evaluated. No step finds a value undefined, and the
run does not end in that way either. -/
theorem letRec_of_lambdas_defined (e : Expr) (settled : e.Everywhere Expr.Settled) (h : Heap) :
    (∀ s h', Reachable .standard e h s h' →
      (∀ v ∈ s.values, v ≠ .undefined) ∧
      (∀ ref v, h.boxes.size ≤ ref → h'.boxes[ref]? = some v → v ≠ .undefined) ∧
      (∀ place f x, h.frames.size ≤ place → h'.frames[place]? = some f →
        (x, .undefined) ∈ f.bindings → s.Initializes place) ∧
      ∀ h'', step .standard s h' ≠ .error .undefinedAccess h'') ∧
    ∀ fuel stats ending, evaluate .standard fuel e h = some (stats, ending) →
      ∀ h', ending ≠ .ok .undefined h' ∧ ending ≠ .error .undefinedAccess h' := by
  have access : ∀ {s h' h''}, Reachable .standard e h s h' →
      step .standard s h' ≠ .error .undefinedAccess h'' := by
    intro s h' h'' reached fail
    obtain ⟨ref, mem, hcontents⟩ := (step_eq_error_iff.mp fail).undefinedAccess
    have own : h.mark.boxes ≤ ref := reached.own_standard.1.values mem
    have here : ref < h'.boxes.size := reached.onHeap.1 _ mem
    rw [Heap.contents, Array.getD_eq_getD_getElem?, Array.getElem?_eq_getElem here] at hcontents
    exact (reached.hides settled).boxes ref _ own (Array.getElem?_eq_getElem here) hcontents
  refine ⟨?_, ?_⟩
  · intro s h' reached
    have hides := reached.hides settled
    refine ⟨hides.values, hides.boxes, ?_, fun h'' => access reached⟩
    intro place f x hplace hf mem
    exact (hides.cells place f hplace hf).resolve_left fun all => all _ mem rfl
  · intro fuel stats ending run h'
    obtain ⟨n, -, ends⟩ := evaluate_eq_some_iff.mp ⟨stats, run⟩
    refine ⟨?_, ?_⟩
    · rintro rfl
      obtain ⟨s, steps, hv⟩ := ends.halting_state
      have held : Value.undefined ∈ s.values := by
        rw [State.values, hv]
        exact List.mem_cons_self
      exact (Reachable.hides settled ⟨n, steps⟩).values _ held rfl
    · rintro rfl
      obtain ⟨k, s, h₁, steps, fail⟩ := ends.failing_step
      exact access ⟨k, steps⟩ fail

/-- A procedure that refers to itself. While its lambda expression is evaluated, the cell
of its name is undefined. -/
theorem letRec_of_lambdas_defined_loop :
    ∃ s h, Reachable .standard (.letRec ["f"] [.lambda [] (.app (.ref "f") [])] (.ref "f")) {} s h ∧
      h.frames[1]? = some ⟨[("f", .undefined)], some 0⟩ ∧ s.Initializes 1 ∧
      ∀ fuel stats ending, evaluate .standard fuel
        (.letRec ["f"] [.lambda [] (.app (.ref "f") [])] (.ref "f")) {} = some (stats, ending) →
        ∀ h', ending ≠ .ok .undefined h' := by
  have settled : (Expr.letRec ["f"] [.lambda [] (.app (.ref "f") [])] (.ref "f")).Everywhere
      Expr.Settled := by
    have ref : (Expr.ref "f").Everywhere Expr.Settled := .node trivial nofun
    have app : (Expr.app (.ref "f") []).Everywhere Expr.Settled :=
      .node trivial (List.forall_mem_singleton.mpr ref)
    have lambda : (Expr.lambda [] (.app (.ref "f") [])).Everywhere Expr.Settled :=
      .node trivial (List.forall_mem_singleton.mpr app)
    refine .node (List.forall_mem_singleton.mpr ⟨[], _, rfl⟩) ?_
    exact List.forall_mem_cons.mpr ⟨lambda, List.forall_mem_singleton.mpr ref⟩
  have reached : Reachable .standard
      (.letRec ["f"] [.lambda [] (.app (.ref "f") [])] (.ref "f")) {} _ _ :=
    ⟨1, .one State.running_evaluating rfl⟩
  obtain ⟨states, ending⟩ := letRec_of_lambdas_defined _ settled {}
  refine ⟨_, _, reached, rfl, ?_, fun fuel stats a run h' => (ending fuel stats a run h').1⟩
  exact (states _ _ reached).2.2.1 1 _ "f" (Nat.zero_le 1) rfl List.mem_cons_self

end Machine

end CoreLisp
