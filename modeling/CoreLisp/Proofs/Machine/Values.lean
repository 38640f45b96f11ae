import CoreLisp.Proofs.Heap.View
import CoreLisp.Proofs.Machine.Move

/-!
# The values in a state

A step puts only two sorts of values into a state and onto the heap: values that
were there before, and values that it makes. It makes numbers, truth values and
the like, boxes that are on the heap after the step, and the procedure of the
lambda expression that it visits. `Transition.values` goes through all steps once;
a property of values that the made ones have is then a property of all values of
a run.

A state can come to more values than those it holds, through the frames of its
environments and the contents of its boxes. They are `Present` in it.
-/
namespace CoreLisp

variable {q r : Value → Prop} {p : Expr → Prop} {m : Mark}

/-- The value refers to nothing on the heap. -/
def Value.Plain : Value → Prop
  | .box _ | .procedure _ => False
  | _ => True

theorem Value.OnHeap.mono {v : Value} {h h' : Heap} (here : v.OnHeap h)
    (grows : h.boxes.size ≤ h'.boxes.size) : v.OnHeap h' := by
  cases v with
  | box => exact Nat.lt_of_lt_of_le here grows
  | _ => trivial

theorem Datum.plain_value (d : Datum) : d.value.Plain := by
  cases d <;> exact trivial

/-- All values behind the mark have the property. -/
def Heap.All (q : Value → Prop) (m : Mark) (h : Heap) : Prop := h.Each (Frame.All q) q m

def Control.values : Control → List Value
  | .evaluating _ => []
  | .returning v | .halted v => [v]

/-- The values that a state holds itself. -/
def State.values (s : State) : List Value :=
  s.control.values ++ s.stack.frames.flatMap Kont.values

/-- The values of a state that resumes a frame. -/
theorem State.forall_values_returning {v : Value} {env : Env} {stack : Stack} {k : Kont} :
    (∀ w ∈ State.values ⟨.returning v, env, stack.push k⟩, q w) ↔
      q v ∧ (∀ w ∈ k.values, q w) ∧ ∀ w ∈ stack.frames.flatMap Kont.values, q w := by
  simp only [State.values, Control.values, Stack.frames_push, List.flatMap_cons,
    List.forall_mem_append, List.forall_mem_singleton]

theorem State.forall_values_evaluating {e : Expr} {env : Env} {stack : Stack} {k : Kont} :
    (∀ w ∈ State.values ⟨.evaluating e, env, stack.push k⟩, q w) ↔
      (∀ w ∈ k.values, q w) ∧ ∀ w ∈ stack.frames.flatMap Kont.values, q w := by
  simp only [State.values, Control.values, Stack.frames_push, List.flatMap_cons,
    List.nil_append, List.forall_mem_append]

namespace Heap

variable {h h' : Heap} {env inner : Env} {names : List Name} {values : List Value} {x : Name}
variable {v : Value} {u : Unit}

theorem All.imp (all : h.All q m) (weaker : ∀ v, q v → r v) : h.All r m :=
  Each.imp all (fun _ hf b hb => weaker b.2 (hf b hb)) weaker

/-- A box that holds something other than the default is on the heap. -/
theorem getElem?_of_contents {ref : BoxRef} (hcontents : h.contents ref = v)
    (defined : v ≠ .undefined) : h.boxes[ref]? = some v := by
  unfold contents at hcontents
  rw [Array.getD_eq_getD_getElem?] at hcontents
  cases hbox : h.boxes[ref]? with
  | none =>
      rw [hbox] at hcontents
      exact absurd hcontents.symm defined
  | some w =>
      rw [hbox] at hcontents
      rw [← hcontents]
      rfl

theorem All.of_lookup (all : h.All q m) (own : h.Own p m) (henv : m.frames ≤ env)
    (ok : env.lookup x h = .ok v h') : q v ∧ h'.All q m := by
  obtain ⟨rfl, owner, found⟩ := Env.lookup_eq_ok_iff.mp ok
  obtain ⟨f, howner, hf, mem⟩ := own.find?_origin henv found
  exact ⟨all.frames owner f howner hf (x, v) mem, all⟩

theorem All.of_extend (all : h.All q m) (hvalues : ∀ v ∈ values, q v)
    (ok : env.extend names values h = .ok inner h') : h'.All q m := by
  obtain ⟨-, -, -, rfl⟩ := Env.extend_eq_ok_iff.mp ok
  refine all.addFrame ?_
  intro b hb
  exact hvalues b.2 (List.of_mem_zip hb).2

theorem All.of_assign (all : h.All q m) (hv : q v) (ok : env.assign x v h = .ok u h') :
    h'.All q m := by
  obtain ⟨owner, w, -, rfl⟩ := Env.assign_eq_ok_iff.mp ok
  exact all.rebind fun _ hf => hf.set hv

theorem All.of_assignAll (all : h.All q m) (hvalues : ∀ v ∈ values, q v)
    (ok : env.assignAll (names.zip values) h = .ok u h') : h'.All q m := by
  refine Env.assignAll_invariant (P := Heap.All q m) ?_ ok all
  intro x v u h h' mem ok all
  exact all.of_assign (hvalues v (List.of_mem_zip mem).2) ok

end Heap

namespace Machine

variable {s s' : State} {h h' : Heap}

/-- All that a step gives without having been given it has the property: the datum that it
visits, the unit value, the placeholders of a recursive binding, what a primitive works
out, a box that is on the heap afterwards, and the procedure of a lambda expression. -/
structure Supplies (q : Value → Prop) (s : State) (h h' : Heap) : Prop where
  datum : ∀ d, s.control = .evaluating (.datum d) → q d.value
  unit : q .unit
  placeholder : ∀ names inits body, s.control = .evaluating (.letRec names inits body) →
    q .undefined
  primitive : ∀ (b : Builtin) (args : List Value) (v : Value), b ≠ .unbox →
    b.Applied args h v h' → v.Plain → q v
  box : ∀ ref < h'.boxes.size, q (.box ref)
  procedure : ∀ params body, s.control = .evaluating (.lambda params body) →
    q (.procedure ⟨h.procedures, params, body, s.env⟩)

/-- What a step may make has the property, whatever plain values it makes. -/
structure Makes (q : Value → Prop) (s : State) (h h' : Heap) : Prop where
  plain : ∀ v : Value, v.Plain → q v
  box : ∀ ref < h'.boxes.size, q (.box ref)
  procedure : ∀ params body, s.control = .evaluating (.lambda params body) →
    q (.procedure ⟨h.procedures, params, body, s.env⟩)

theorem Makes.supplies (makes : Makes q s h h') : Supplies q s h h' where
  datum d _ := makes.plain _ d.plain_value
  unit := makes.plain _ trivial
  placeholder _ _ _ _ := makes.plain _ trivial
  primitive _ _ v _ _ plain := makes.plain v plain
  box := makes.box
  procedure := makes.procedure

theorem Supplies.apply {name : Name} {args : List Value} {v : Value} (gives : Supplies q s h h')
    (ok : Table.standard.apply name args h = .ok v h') (hown : ∀ a ∈ args, a.Own p m)
    (hargs : ∀ a ∈ args, q a) (all : h.All q m) : q v ∧ h'.All q m := by
  obtain ⟨b, -, applied⟩ := Table.apply_standard_eq_ok_iff.mp ok
  have made := gives.primitive b args v
  cases applied with
  | box =>
      have hv := hargs _ List.mem_cons_self
      exact ⟨gives.box _ (by simp), all.addBox hv⟩
  | setBox =>
      have hv := hargs _ (List.mem_cons_of_mem _ List.mem_cons_self)
      exact ⟨gives.unit, all.setBox hv⟩
  | unbox hcontents defined =>
      have href := hown _ List.mem_cons_self
      exact ⟨all.boxes _ _ href (Heap.getElem?_of_contents hcontents defined), all⟩
  | isZero | isEqual | isLess | not | void => exact ⟨made nofun (by constructor) trivial, all⟩
  | plus inRange | minus inRange | mult inRange | add1 inRange | sub1 inRange =>
      exact ⟨made nofun (by constructor; exact inRange) trivial, all⟩

/-- A step keeps a property of all values if what it supplies has it. -/
theorem Transition.values_of_supplies (t : Transition .standard s h s' h')
    (gives : Supplies q s h h') (own : s.Own p m) (hown : h.Own p m) (hs : ∀ v ∈ s.values, q v)
    (all : h.All q m) : (∀ v ∈ s'.values, q v) ∧ h'.All q m := by
  have code := own.control
  cases t with
  | datum => exact ⟨List.forall_mem_cons.mpr ⟨gives.datum _ rfl, hs⟩, all⟩
  | ref hx =>
      obtain ⟨hv, all⟩ := all.of_lookup hown own.env hx
      exact ⟨List.forall_mem_cons.mpr ⟨hv, hs⟩, all⟩
  | lambda hf =>
      cases hf
      have hv := gives.procedure _ _ rfl
      exact ⟨List.forall_mem_cons.mpr ⟨hv, hs⟩, all.frames, all.boxes⟩
  | cond | assign | seqOne | seqFirst | letNone | letFirst | primFirst | app => exact ⟨hs, all⟩
  | letRecFirst _ hx =>
      refine ⟨hs, all.of_extend ?_ hx⟩
      intro v hv
      obtain ⟨-, -, rfl⟩ := List.mem_map.mp hv
      exact gives.placeholder _ _ _ rfl
  | primNone hv =>
      obtain ⟨hv, all⟩ := gives.apply (p := p) hv nofun nofun all
      exact ⟨List.forall_mem_cons.mpr ⟨hv, hs⟩, all⟩
  | halt =>
      obtain ⟨hv, -, hstack⟩ := State.forall_values_returning.mp hs
      exact ⟨List.forall_mem_cons.mpr ⟨hv, hstack⟩, all⟩
  | chosen | seqLast =>
      obtain ⟨-, -, hstack⟩ := State.forall_values_returning.mp hs
      exact ⟨hstack, all⟩
  | assigned hx =>
      obtain ⟨hv, -, hstack⟩ := State.forall_values_returning.mp hs
      exact ⟨List.forall_mem_cons.mpr ⟨gives.unit, hstack⟩, all.of_assign hv hx⟩
  | seqNext =>
      obtain ⟨-, -, hstack⟩ := State.forall_values_returning.mp hs
      exact ⟨hstack, all⟩
  | seqPast =>
      obtain ⟨hv, -, hstack⟩ := State.forall_values_returning.mp hs
      exact ⟨List.forall_mem_cons.mpr ⟨hv, hstack⟩, all⟩
  | letNext | letRecNext | primNext =>
      obtain ⟨hv, hvalues, hstack⟩ := State.forall_values_returning.mp hs
      have hvalues := forall_mem_snoc hvalues hv
      exact ⟨State.forall_values_evaluating.mpr ⟨hvalues, hstack⟩, all⟩
  | letDone _ hx =>
      obtain ⟨hv, hvalues, hstack⟩ := State.forall_values_returning.mp hs
      exact ⟨hstack, all.of_extend (forall_mem_snoc hvalues hv) hx⟩
  | letRecDone _ hx =>
      obtain ⟨hv, hvalues, hstack⟩ := State.forall_values_returning.mp hs
      exact ⟨hstack, all.of_assignAll (forall_mem_snoc hvalues hv) hx⟩
  | primDone _ hw =>
      obtain ⟨hv, hvalues, hstack⟩ := State.forall_values_returning.mp hs
      have hargs := forall_mem_snoc own.below.1.values code
      obtain ⟨hw, all⟩ := gives.apply hw hargs (forall_mem_snoc hvalues hv) all
      exact ⟨List.forall_mem_cons.mpr ⟨hw, hstack⟩, all⟩
  | callNone _ hx =>
      obtain ⟨-, -, hstack⟩ := State.forall_values_returning.mp hs
      exact ⟨hstack, all.of_extend (List.forall_mem_nil _) hx⟩
  | operandFirst =>
      obtain ⟨hv, -, hstack⟩ := State.forall_values_returning.mp hs
      have hvalues := List.forall_mem_singleton.mpr hv
      exact ⟨State.forall_values_evaluating.mpr ⟨hvalues, hstack⟩, all⟩
  | operandNext =>
      obtain ⟨hv, hvalues, hstack⟩ := State.forall_values_returning.mp hs
      have hvalues := forall_mem_snoc hvalues hv
      exact ⟨State.forall_values_evaluating.mpr ⟨hvalues, hstack⟩, all⟩
  | call _ _ hx =>
      obtain ⟨hv, hvalues, hstack⟩ := State.forall_values_returning.mp hs
      -- the operator stands before the operands
      have hargs := (List.forall_mem_cons.mp hvalues).2
      exact ⟨hstack, all.of_extend (forall_mem_snoc hargs hv) hx⟩
  | halted => exact ⟨hs, all⟩

/-- A step keeps a property of all values if what it may make has it. -/
theorem Transition.values (t : Transition .standard s h s' h') (makes : Makes q s h h')
    (own : s.Own p m) (hown : h.Own p m) (hs : ∀ v ∈ s.values, q v) (all : h.All q m) :
    (∀ v ∈ s'.values, q v) ∧ h'.All q m :=
  t.values_of_supplies makes.supplies own hown hs all

/-- A step keeps all values on the heap. -/
theorem Transition.onHeap (t : Transition .standard s h s' h') (own : s.Own p m)
    (hown : h.Own p m) (hs : ∀ v ∈ s.values, v.OnHeap h) (all : h.All (Value.OnHeap h) m) :
    (∀ v ∈ s'.values, v.OnHeap h') ∧ h'.All (Value.OnHeap h') m := by
  have grows := (t.grows Table.standard_grows).boxes_le
  have makes : Makes (Value.OnHeap h') s h h' := by
    refine ⟨?_, fun _ hlt => hlt, fun _ _ _ => trivial⟩
    intro v plain
    cases v with
    | box => cases plain
    | _ => trivial
  exact t.values makes own hown (fun v mem => (hs v mem).mono grows)
    (all.imp fun v hv => hv.mono grows)

/-- Whatever a program is, all of a run is its own. -/
theorem Reachable.own_standard {e : Expr} (reached : Reachable .standard e h s h') :
    s.Own (fun _ => True) h.mark ∧ h'.Own (fun _ => True) h.mark :=
  reached.own (Table.standard_keeps _ _) (Expr.everywhere_of_forall (fun _ => True.intro) e)

/-- The values of a run refer to boxes that are on the heap. -/
theorem Reachable.onHeap {e : Expr} (reached : Reachable .standard e h s h') :
    (∀ v ∈ s.values, v.OnHeap h') ∧ h'.All (Value.OnHeap h') h.mark := by
  refine reached.induction
    (P := fun s h' => (∀ v ∈ s.values, v.OnHeap h') ∧ h'.All (Value.OnHeap h') h.mark)
    ⟨List.forall_mem_nil _, ?_⟩ ?_
  · exact (Heap.Each.at_mark _ _ h).addFrame (List.forall_mem_nil _)
  · intro s s' h₁ h₂ reached hs here
    obtain ⟨own, hown⟩ := reached.own_standard
    exact (step_eq_ok_iff.mp hs).onHeap own hown here.1 here.2

end Machine

/-- The state can come to the environment or the value: it holds it, or finds it in a
frame, in a box or in a procedure to which it can come. -/
inductive State.Present (s : State) (h : Heap) : Env ⊕ Value → Prop
  | env : Present s h (.inl s.env)
  | waiting {k : Kont} : k ∈ s.stack.frames → Present s h (.inl k.env)
  | held {v : Value} : v ∈ s.values → Present s h (.inr v)
  | parent {env outer : Env} {f : Frame} : Present s h (.inl env) → h.frames[env]? = some f →
      f.parent = some outer → Present s h (.inl outer)
  | binding {env : Env} {f : Frame} {b : Name × Value} : Present s h (.inl env) →
      h.frames[env]? = some f → b ∈ f.bindings → Present s h (.inr b.2)
  | contents {ref : BoxRef} {v : Value} : Present s h (.inr (.box ref)) →
      h.boxes[ref]? = some v → Present s h (.inr v)
  | procedure {f : Closure} : Present s h (.inr (.procedure f)) → Present s h (.inl f.env)

theorem State.Own.values {s : State} {v : Value} (own : s.Own p m) (mem : v ∈ s.values) :
    v.Own p m := by
  obtain ⟨control, env, stack⟩ := s
  rcases List.mem_append.mp mem with mem | mem
  · have hcontrol := own.control
    cases control with
    | evaluating => cases mem
    | returning | halted =>
        rw [List.mem_singleton.mp mem]
        exact hcontrol
  · obtain ⟨k, hk, mem⟩ := List.mem_flatMap.mp mem
    exact (own.stack k hk).values v mem

/-- A state of the program's own comes only to what is the program's own, and to values
with a property that its values have. -/
theorem State.Present.own {s : State} {h : Heap} {x : Env ⊕ Value} (present : s.Present h x)
    (own : s.Own p m) (hown : h.Own p m) (hs : ∀ v ∈ s.values, q v) (all : h.All q m) :
    match x with
    | .inl place => m.frames ≤ place
    | .inr v => v.Own p m ∧ q v := by
  induction present with
  | env => exact own.env
  | waiting mem => exact (own.stack _ mem).env
  | held mem => exact ⟨own.values mem, hs _ mem⟩
  | parent _ hf hparent ih => exact (hown.frames _ _ ih hf).parent _ hparent
  | binding _ hf mem ih => exact ⟨(hown.frames _ _ ih hf).values _ mem, all.frames _ _ ih hf _ mem⟩
  | contents _ hv ih => exact ⟨hown.boxes _ _ ih.1 hv, all.boxes _ _ ih.1 hv⟩
  | procedure _ ih => exact ih.1.1

end CoreLisp
