import CoreLisp.Proofs.Expr.WellFormed
import CoreLisp.Proofs.Primitive.Standard

/-!
# What a program holds of the heap

A program may start on a heap that other programs have left, about which nothing
is known. The mark is where the heap ended then. What the program makes stands
behind the mark and refers only to what stands behind it, so the program never
comes to see what was there before.

The bodies of its procedures come from the program itself. They are followed by
a property that holds everywhere in an expression.
-/
namespace CoreLisp

/-- Where a heap ends. -/
structure Mark where
  frames : Nat
  boxes : Nat

def Heap.mark (h : Heap) : Mark := ⟨h.frames.size, h.boxes.size⟩

variable {p : Expr → Prop} {q : Value → Prop} {m : Mark}

/-- The value refers only to what stands behind the mark, and if it is a procedure
then its text has the property. -/
def Value.Own (p : Expr → Prop) (m : Mark) : Value → Prop
  | .box ref => m.boxes ≤ ref
  | .procedure f => m.frames ≤ f.env ∧ (Expr.lambda f.params f.body).Everywhere p
  | _ => True

/-- All values in the frame have the property. -/
def Frame.All (q : Value → Prop) (f : Frame) : Prop := ∀ b ∈ f.bindings, q b.2

structure Frame.Own (p : Expr → Prop) (m : Mark) (f : Frame) : Prop where
  values : ∀ b ∈ f.bindings, b.2.Own p m
  parent : ∀ outer, f.parent = some outer → m.frames ≤ outer

/-- The heap goes beyond the mark, and what stands behind the mark is the program's
own. -/
structure Heap.Own (p : Expr → Prop) (m : Mark) (h : Heap) : Prop where
  frames_le : m.frames ≤ h.frames.size
  boxes_le : m.boxes ≤ h.boxes.size
  frames : ∀ i frame, m.frames ≤ i → h.frames[i]? = some frame → frame.Own p m
  boxes : ∀ i v, m.boxes ≤ i → h.boxes[i]? = some v → v.Own p m

theorem Datum.own_value (d : Datum) : d.value.Own p m := by
  cases d <;> exact trivial

theorem Frame.All.set {f : Frame} {x : Name} {v : Value} (hf : f.All q) (hv : q v) :
    (f.set x v).All q := by
  intro b hb
  obtain ⟨b', hb', rfl⟩ := List.mem_map.mp hb
  have old := hf b' hb'
  split
  · exact hv
  · exact old

theorem Frame.Own.set {f : Frame} {x : Name} {v : Value} (hf : f.Own p m) (hv : v.Own p m) :
    (f.set x v).Own p m :=
  ⟨Frame.All.set hf.values hv, hf.parent⟩

namespace Heap

variable {h h' : Heap} {env owner : Env} {x : Name} {v : Value}

/-- The frames and the contents of boxes behind the mark have these properties. -/
structure Each (F : Frame → Prop) (V : Value → Prop) (m : Mark) (h : Heap) : Prop where
  frames : ∀ i frame, m.frames ≤ i → h.frames[i]? = some frame → F frame
  boxes : ∀ i v, m.boxes ≤ i → h.boxes[i]? = some v → V v

namespace Each

variable {F : Frame → Prop} {V : Value → Prop}

/-- Behind the end of a heap there is nothing. -/
theorem at_mark (F : Frame → Prop) (V : Value → Prop) (h : Heap) : h.Each F V h.mark := by
  refine ⟨?_, ?_⟩
  · intro i frame hi hframe
    have hlt := (Array.getElem?_eq_some_iff.mp hframe).1
    exact absurd hlt (Nat.not_lt.mpr hi)
  · intro i v hi hv
    have hlt := (Array.getElem?_eq_some_iff.mp hv).1
    exact absurd hlt (Nat.not_lt.mpr hi)

theorem imp {F' : Frame → Prop} {V' : Value → Prop} (each : h.Each F V m)
    (frames : ∀ f, F f → F' f) (boxes : ∀ v, V v → V' v) : h.Each F' V' m :=
  ⟨fun i f hi hf => frames f (each.frames i f hi hf),
    fun i v hi hv => boxes v (each.boxes i v hi hv)⟩

theorem addFrame {frame : Frame} (each : h.Each F V m) (hf : F frame) :
    (h.addFrame frame).Each F V m := by
  refine ⟨?_, each.boxes⟩
  intro i frame' hi hframe
  simp only [frames_addFrame, Array.getElem?_push] at hframe
  split at hframe
  · cases hframe
    exact hf
  · exact each.frames i frame' hi hframe

theorem rebind (each : h.Each F V m) (hset : ∀ frame, F frame → F (frame.set x v)) :
    (h.rebind owner x v).Each F V m := by
  refine ⟨?_, each.boxes⟩
  intro i frame hi hframe
  simp only [frames_rebind, Array.getElem?_modify] at hframe
  split at hframe
  · obtain ⟨old, hold, rfl⟩ := Option.map_eq_some_iff.mp hframe
    exact hset old (each.frames i old hi hold)
  · exact each.frames i frame hi hframe

theorem addBox (each : h.Each F V m) (hv : V v) : (h.addBox v).Each F V m := by
  refine ⟨each.frames, ?_⟩
  intro i w hi hw
  simp only [boxes_addBox, Array.getElem?_push] at hw
  split at hw
  · cases hw
    exact hv
  · exact each.boxes i w hi hw

theorem setBox {ref : BoxRef} (each : h.Each F V m) (hv : V v) : (h.setBox ref v).Each F V m := by
  refine ⟨each.frames, ?_⟩
  intro i w hi hw
  simp only [boxes_setBox, Array.getElem?_setIfInBounds] at hw
  split at hw
  · split at hw
    · cases hw
      exact hv
    · cases hw
  · exact each.boxes i w hi hw

theorem contents {ref : BoxRef} (each : h.Each F V m) (undefined : V .undefined)
    (href : m.boxes ≤ ref) : V (h.contents ref) := by
  unfold Heap.contents
  rw [Array.getD_eq_getD_getElem?]
  cases hv : h.boxes[ref]? with
  | none => exact undefined
  | some v => exact each.boxes ref v href hv

end Each

theorem Own.each (own : h.Own p m) : h.Each (Frame.Own p m) (Value.Own p m) m :=
  ⟨own.frames, own.boxes⟩

theorem Own.of_grown (own : h.Own p m) (hframes : h.frames.size ≤ h'.frames.size)
    (hboxes : h.boxes.size ≤ h'.boxes.size)
    (each : h'.Each (Frame.Own p m) (Value.Own p m) m) : h'.Own p m :=
  ⟨Nat.le_trans own.frames_le hframes, Nat.le_trans own.boxes_le hboxes, each.frames, each.boxes⟩

/-- Looking outward from behind the mark does not lead before it. -/
theorem Own.find?_origin (own : h.Own p m) (henv : m.frames ≤ env)
    (found : h.find? x env = some (owner, v)) :
    ∃ frame, m.frames ≤ owner ∧ h.frames[owner]? = some frame ∧ (x, v) ∈ frame.bindings := by
  induction env using Nat.strongRecOn with
  | ind env ih =>
      unfold Heap.find? at found
      cases hframe : h.frames[env]? with
      | none => simp [hframe] at found
      | some frame =>
          have hown := own.frames env frame henv hframe
          simp only [hframe] at found
          cases hx : frame.get? x with
          | some w =>
              simp only [hx] at found
              cases found
              obtain ⟨before, after, hbindings, -⟩ := List.lookup_eq_some_iff.mp hx
              exact ⟨frame, henv, hframe, by simp [hbindings]⟩
          | none =>
              cases hparent : frame.parent with
              | none => simp [hx, hparent] at found
              | some outer =>
                  simp only [hx, hparent] at found
                  split at found
                  · exact ih outer ‹_› (hown.parent outer hparent) found
                  · cases found

theorem Own.find? (own : h.Own p m) (henv : m.frames ≤ env)
    (found : h.find? x env = some (owner, v)) : v.Own p m := by
  obtain ⟨frame, howner, hframe, mem⟩ := own.find?_origin henv found
  exact (own.frames owner frame howner hframe).values (x, v) mem

/-- All that stands behind the end of a heap is the program's own. -/
theorem own_mark (p : Expr → Prop) (h : Heap) : h.Own p h.mark := by
  have each := Each.at_mark (Frame.Own p h.mark) (Value.Own p h.mark) h
  exact ⟨Nat.le_refl _, Nat.le_refl _, each.frames, each.boxes⟩

theorem Own.addFrame {frame : Frame} (own : h.Own p m) (hf : frame.Own p m) :
    (h.addFrame frame).Own p m :=
  own.of_grown (by simp) (by simp) (own.each.addFrame hf)

theorem Own.rebind (own : h.Own p m) (hv : v.Own p m) : (h.rebind owner x v).Own p m :=
  own.of_grown (by simp) (by simp) (own.each.rebind fun _ hf => hf.set hv)

theorem Own.addBox (own : h.Own p m) (hv : v.Own p m) : (h.addBox v).Own p m :=
  own.of_grown (by simp) (by simp) (own.each.addBox hv)

theorem Own.setBox {ref : BoxRef} (own : h.Own p m) (hv : v.Own p m) :
    (h.setBox ref v).Own p m :=
  own.of_grown (by simp) (by simp) (own.each.setBox hv)

theorem Own.contents {ref : BoxRef} (own : h.Own p m) (href : m.boxes ≤ ref) :
    (h.contents ref).Own p m :=
  own.each.contents trivial href

end Heap

namespace Env

variable {env inner : Env} {names : List Name} {values : List Value} {x : Name} {v : Value}
variable {h h' : Heap} {u : Unit}

theorem own_of_lookup (ok : env.lookup x h = .ok v h') (henv : m.frames ≤ env) (own : h.Own p m) :
    v.Own p m ∧ h'.Own p m := by
  obtain ⟨rfl, owner, found⟩ := lookup_eq_ok_iff.mp ok
  exact ⟨own.find? henv found, own⟩

theorem own_of_assign (ok : env.assign x v h = .ok u h') (hv : v.Own p m) (own : h.Own p m) :
    h'.Own p m := by
  obtain ⟨owner, w, -, rfl⟩ := assign_eq_ok_iff.mp ok
  exact own.rebind hv

theorem own_of_assignAll (ok : env.assignAll (names.zip values) h = .ok u h')
    (hvalues : ∀ v ∈ values, v.Own p m) (own : h.Own p m) : h'.Own p m := by
  refine assignAll_invariant (P := Heap.Own p m) ?_ ok own
  intro x v u h h' mem ok own
  exact own_of_assign ok (hvalues v (List.of_mem_zip mem).2) own

/-- A new frame stands behind the mark. -/
theorem own_of_extend (ok : env.extend names values h = .ok inner h') (henv : m.frames ≤ env)
    (hvalues : ∀ v ∈ values, v.Own p m) (own : h.Own p m) :
    m.frames ≤ inner ∧ h'.Own p m := by
  obtain ⟨-, -, rfl, rfl⟩ := extend_eq_ok_iff.mp ok
  refine ⟨own.frames_le, own.addFrame ⟨?_, ?_⟩⟩
  · intro b hb
    exact hvalues b.2 (List.of_mem_zip hb).2
  · intro outer houter
    cases houter
    exact henv

end Env

/-- The primitives give what they are given or what they make, and keep the heap
the program's own. -/
def Table.Keeps (t : Table) (p : Expr → Prop) (m : Mark) : Prop :=
  ∀ name args v h h', t.apply name args h = .ok v h' → (∀ a ∈ args, a.Own p m) →
    h.Own p m → v.Own p m ∧ h'.Own p m

theorem Builtin.Applied.own {b : Builtin} {args : List Value} {v : Value} {h h' : Heap}
    (applied : b.Applied args h v h') (hargs : ∀ a ∈ args, a.Own p m) (own : h.Own p m) :
    v.Own p m ∧ h'.Own p m := by
  cases applied with
  | box =>
      have hv := hargs _ List.mem_cons_self
      exact ⟨own.boxes_le, own.addBox hv⟩
  | setBox =>
      have hv := hargs _ (List.mem_cons_of_mem _ List.mem_cons_self)
      exact ⟨trivial, own.setBox hv⟩
  | unbox hcontents =>
      have href := hargs _ List.mem_cons_self
      exact ⟨hcontents ▸ own.contents href, own⟩
  | _ => exact ⟨trivial, own⟩

theorem Table.standard_keeps (p : Expr → Prop) (m : Mark) : standard.Keeps p m := by
  intro name args v h h' ok hargs own
  obtain ⟨b, -, applied⟩ := apply_standard_eq_ok_iff.mp ok
  exact applied.own hargs own

end CoreLisp
