import CoreLisp.Proofs.Heap.Own
import CoreLisp.Proofs.Heap.Scopes

/-!
# Heaps without dangling references

A heap is sound if all that it refers to is on it, and if every frame stands behind the
frame around it, down to a root. Cells can hold procedures over the very frame that they
are in, so the references of a heap run in circles; the frames around a frame do not.

An action is safe on a heap if it leaves a sound heap that has grown, whether it gives a
result or fails. Sequences of safe actions are safe, as the references that the later ones
are given stay good while the heap grows.
-/
namespace CoreLisp

/-- What the value refers to is on the heap. -/
def Value.Allocated (h : Heap) : Value → Prop
  | .box ref => ref < h.boxes.size
  | .procedure f => f.env < h.frames.size
  | _ => True

/-- The frame can stand at `place`: the one around it stands before it, or else it is a
root and binds nothing. -/
def Frame.Nested (place : Env) (f : Frame) : Prop :=
  match f.parent with
  | some outer => outer < place
  | none => f.bindings = []

structure Heap.Sound (h : Heap) : Prop where
  values : h.Each (Frame.All (Value.Allocated h)) (Value.Allocated h) ⟨0, 0⟩
  nested : ∀ (place : Env) (f : Frame), h.frames[place]? = some f → f.Nested place

variable {h h₁ h' : Heap} {env inner owner : Env} {f : Frame} {names : List Name}
variable {values : List Value} {x : Name} {v : Value} {ref : BoxRef}

theorem Value.Allocated.mono (allocated : v.Allocated h) (grows : h.Grows h') :
    v.Allocated h' := by
  cases v with
  | box => exact Nat.lt_of_lt_of_le allocated grows.boxes_le
  | procedure => exact Nat.lt_of_lt_of_le allocated grows.frames_le
  | _ => trivial

theorem Value.allocated_all_mono (allocated : ∀ v ∈ values, v.Allocated h)
    (grows : h.Grows h') : ∀ v ∈ values, v.Allocated h' :=
  fun v mem => (allocated v mem).mono grows

theorem Frame.Nested.set {place : Env} (nested : f.Nested place) :
    (f.set x v).Nested place := by
  unfold Nested at nested ⊢
  rw [parent_set]
  cases hp : f.parent with
  | some outer => simpa only [hp] using nested
  | none =>
      simp only [hp] at nested
      simp only [Frame.set, nested, List.map_nil]

namespace Heap

theorem sound_empty : ({} : Heap).Sound := ⟨⟨nofun, nofun⟩, nofun⟩

/-- All values refer to what is on a heap that has grown, too. -/
theorem Sound.grown (sound : h.Sound) (grows : h.Grows h') :
    h.Each (Frame.All (Value.Allocated h')) (Value.Allocated h') ⟨0, 0⟩ :=
  sound.values.imp (fun _ all b hb => (all b hb).mono grows) fun _ hv => hv.mono grows

theorem Sound.addFrame (sound : h.Sound) (nested : f.Nested h.frames.size)
    (values : f.All (Value.Allocated h)) : (h.addFrame f).Sound := by
  have grows := Grows.addFrame h f
  refine ⟨(sound.grown grows).addFrame fun b hb => (values b hb).mono grows, ?_⟩
  intro place g hg
  rw [frames_addFrame, Array.getElem?_push] at hg
  split at hg
  · rename_i hnew
    cases hg
    exact hnew ▸ nested
  · exact sound.nested place g hg

theorem Sound.rebind (sound : h.Sound) (hv : v.Allocated h) : (h.rebind owner x v).Sound := by
  have grows := Grows.rebind h owner x v
  refine ⟨(sound.grown grows).rebind fun _ all => all.set (hv.mono grows), ?_⟩
  intro place g hg
  rw [frames_rebind, Array.getElem?_modify] at hg
  split at hg
  · obtain ⟨old, hold, rfl⟩ := Option.map_eq_some_iff.mp hg
    exact (sound.nested place old hold).set
  · exact sound.nested place g hg

theorem Sound.addBox (sound : h.Sound) (hv : v.Allocated h) : (h.addBox v).Sound := by
  have grows := Grows.addBox h v
  exact ⟨(sound.grown grows).addBox (hv.mono grows), sound.nested⟩

theorem Sound.setBox (sound : h.Sound) (hv : v.Allocated h) : (h.setBox ref v).Sound := by
  have grows := Grows.setBox h ref v
  exact ⟨(sound.grown grows).setBox (hv.mono grows), sound.nested⟩

theorem Sound.contents (sound : h.Sound) (ref : BoxRef) : (h.contents ref).Allocated h :=
  sound.values.contents trivial (Nat.zero_le ref)

theorem Sound.newRoot (sound : h.Sound) : h.newRoot.2.Sound :=
  sound.addFrame rfl nofun

theorem grows_newRoot (h : Heap) : h.Grows h.newRoot.2 := .addFrame h _

/-- What is found in a frame is one of its values. -/
theorem Sound.find? (sound : h.Sound) (found : h.find? x env = some (owner, v)) :
    v.Allocated h := by
  obtain ⟨f, hf, hx⟩ := get?_of_find? found
  obtain ⟨before, after, hbindings, -⟩ := List.lookup_eq_some_iff.mp hx
  exact sound.values.frames owner f (Nat.zero_le owner) hf (x, v) (by simp [hbindings])

/-- Making a procedure changes no frame and no box. -/
theorem Grows.addProcedure (h : Heap) : h.Grows { h with procedures := h.procedures + 1 } :=
  ⟨fun hf => ⟨_, hf, rfl, rfl⟩, Nat.le_refl _⟩

theorem Sound.addProcedure (sound : h.Sound) :
    Heap.Sound { h with procedures := h.procedures + 1 } := by
  have each := sound.grown (Grows.addProcedure h)
  exact ⟨⟨each.frames, each.boxes⟩, sound.nested⟩

end Heap

namespace Action

variable {α β : Type} {Q : Heap → α → Prop} {R : Heap → β → Prop} {a : Action α} {e : EvalError}

/-- The action has left a sound heap that has grown from `h`, and a result with the
property if it gave one. -/
inductive Leaves (h : Heap) (Q : Heap → α → Prop) : EStateM.Result EvalError Heap α → Prop
  | ok {y : α} {h' : Heap} : h.Grows h' → h'.Sound → Q h' y → Leaves h Q (.ok y h')
  | error {e : EvalError} {h' : Heap} : h.Grows h' → h'.Sound → Leaves h Q (.error e h')

def Safe (h : Heap) (Q : Heap → α → Prop) (a : Action α) : Prop := h.Sound → Leaves h Q (a h)

theorem safe_pure {y : α} (hy : Q h y) : Safe h Q (pure y) :=
  fun sound => .ok (.refl h) sound hy

theorem safe_throw : Safe h Q (throw e : Action α) :=
  fun sound => .error (.refl h) sound

theorem Safe.bind {b : α → Action β} (first : Safe h Q a)
    (rest : ∀ y h', h.Grows h' → Q h' y → Safe h' R (b y)) : Safe h R (a >>= b) := by
  intro sound
  change Leaves h R (EStateM.bind a b h)
  unfold EStateM.bind
  have left := first sound
  generalize a h = result at left
  cases left with
  | error grows sound' => exact .error grows sound'
  | @ok y h' grows sound' hy =>
      have after := rest y h' grows hy sound'
      simp only
      generalize b y h' = result at after
      cases after with
      | error grows' sound'' => exact .error (grows.trans grows') sound''
      | ok grows' sound'' hz => exact .ok (grows.trans grows') sound'' hz

/-- What has been left by the action when it gave a result. -/
theorem Safe.of_ok {y : α} (safe : Safe h Q a) (sound : h.Sound) (ok : a h = .ok y h') :
    h.Grows h' ∧ h'.Sound ∧ Q h' y := by
  have left := safe sound
  rw [ok] at left
  cases left with
  | ok grows sound' hy => exact ⟨grows, sound', hy⟩

theorem Safe.of_error (safe : Safe h Q a) (sound : h.Sound) (fail : a h = .error e h') :
    h.Grows h' ∧ h'.Sound := by
  have left := safe sound
  rw [fail] at left
  cases left with
  | error grows sound' => exact ⟨grows, sound'⟩

end Action

open CoreLisp.Action

namespace Env

theorem safe_extend (henv : env < h.frames.size) (hvalues : ∀ v ∈ values, v.Allocated h) :
    Safe h (fun h' inner => inner < h'.frames.size) (env.extend names values) := by
  intro sound
  unfold extend
  split
  · exact .error (.refl h) sound
  · split
    · exact .error (.refl h) sound
    · refine .ok (.addFrame h _) (sound.addFrame henv ?_) (by simp)
      intro b hb
      exact hvalues b.2 (List.of_mem_zip hb).2

theorem safe_lookup : Safe h (fun h' v => v.Allocated h') (env.lookup x) := by
  intro sound
  unfold lookup
  cases found : h.find? x env with
  | none => exact .error (.refl h) sound
  | some binding => exact .ok (.refl h) sound (sound.find? found)

theorem safe_assign (hv : v.Allocated h) : Safe h (fun _ _ => True) (env.assign x v) := by
  intro sound
  unfold assign
  cases h.find? x env with
  | none => exact .error (.refl h) sound
  | some binding => exact .ok (.rebind h _ x v) (sound.rebind hv) trivial

theorem safe_assignAll {bindings : List (Name × Value)}
    (hvalues : ∀ b ∈ bindings, b.2.Allocated h) :
    Safe h (fun _ _ => True) (env.assignAll bindings) := by
  induction bindings generalizing h with
  | nil => exact safe_pure trivial
  | cons b rest ih =>
      obtain ⟨here, later⟩ := List.forall_mem_cons.mp hvalues
      exact (safe_assign here).bind fun _ _ grows _ => ih fun b hb => (later b hb).mono grows

end Env

theorem Closure.safe_new {params : List Name} {body : Expr} (henv : env < h.frames.size) :
    Safe h (fun h' f => Value.Allocated h' (.procedure f)) (Closure.new params body env) :=
  fun sound => .ok (.addProcedure h) sound.addProcedure henv

namespace BoxRef

theorem safe_new (hv : v.Allocated h) :
    Safe h (fun h' ref => Value.Allocated h' (.box ref)) (BoxRef.new v) :=
  fun sound => .ok (.addBox h v) (sound.addBox hv) (by simp [Value.Allocated])

theorem safe_get : Safe h (fun h' v => v.Allocated h') ref.get :=
  fun sound => .ok (.refl h) sound (sound.contents ref)

theorem safe_set (hv : v.Allocated h) : Safe h (fun _ _ => True) (ref.set v) :=
  fun sound => .ok (.setBox h ref v) (sound.setBox hv) trivial

end BoxRef

/-- Called over the heap with what is on it, the primitives are safe and give what is on
the heap that they leave. -/
def Table.Safe (t : Table) (h : Heap) : Prop :=
  ∀ name args, (∀ a ∈ args, a.Allocated h) →
    Action.Safe h (fun h' v => v.Allocated h') (t.apply name args)

theorem Builtin.Applied.allocated {b : Builtin} {args : List Value}
    (applied : b.Applied args h v h') (sound : h.Sound) (hargs : ∀ a ∈ args, a.Allocated h) :
    h'.Sound ∧ v.Allocated h' := by
  cases applied with
  | box =>
      have hv := hargs _ List.mem_cons_self
      exact ⟨sound.addBox hv, by simp [Value.Allocated]⟩
  | setBox =>
      have hv := hargs _ (List.mem_cons_of_mem _ List.mem_cons_self)
      exact ⟨sound.setBox hv, trivial⟩
  | unbox hcontents => exact ⟨sound, hcontents ▸ sound.contents _⟩
  | _ => exact ⟨sound, trivial⟩

theorem Table.standard_safe (h : Heap) : standard.Safe h := by
  intro name args hargs sound
  cases result : standard.apply name args h with
  | ok v h' =>
      obtain ⟨b, -, applied⟩ := apply_standard_eq_ok_iff.mp result
      obtain ⟨sound', hv⟩ := applied.allocated sound hargs
      exact .ok (standard_grows _ _ _ _ _ result) sound' hv
  | error e h' =>
      obtain ⟨rfl, -⟩ := apply_standard_error result
      exact .error (.refl _) sound

/-- Called with as many arguments as it takes, the primitive is safe. -/
def Primitive.Safe (p : Primitive) (h : Heap) : Prop :=
  ∀ args, args.length = p.arity → (∀ a ∈ args, a.Allocated h) →
    Action.Safe h (fun h' v => v.Allocated h') (p.run args)

theorem Table.Safe.register {t : Table} {p : Primitive} {name : Name} (table : t.Safe h)
    (primitive : p.Safe h) : (t.register name p).Safe h := by
  intro other args hargs
  by_cases same : other = name
  · subst same
    rw [Table.apply, get?_register_self]
    by_cases hlen : args.length = p.arity
    · simp only [if_pos hlen]
      exact primitive args hlen hargs
    · simp only [if_neg hlen]
      exact safe_throw
  · rw [Table.apply, get?_register_of_ne t same]
    exact table other args hargs

/-- Following the parents from the environment, these frames are met. The last of them is
in no other frame. -/
inductive Heap.Chain (h : Heap) : Env → List Frame → Prop
  | root {env : Env} {f : Frame} : h.frames[env]? = some f → f.parent = none → Chain h env [f]
  | inside {env outer : Env} {f : Frame} {frames : List Frame} : h.frames[env]? = some f →
      f.parent = some outer → Chain h outer frames → Chain h env (f :: frames)

namespace Heap

variable {frames : List Frame}

theorem Sound.parent_lt (sound : h.Sound) (hf : h.frames[env]? = some f)
    (hp : f.parent = some owner) : owner < env := by
  have nested := sound.nested env f hf
  simpa only [Frame.Nested, hp] using nested

/-- Strong induction, as a parent stands before its frame. -/
theorem Sound.exists_chain (sound : h.Sound) (henv : env < h.frames.size) :
    ∃ frames, h.Chain env frames ∧ frames.length ≤ env + 1 := by
  induction env using Nat.strongRecOn with
  | ind env ih =>
      have hf := Array.getElem?_eq_getElem henv
      cases hp : h.frames[env].parent with
      | none => exact ⟨_, .root hf hp, Nat.succ_le_succ (Nat.zero_le env)⟩
      | some outer =>
          have hlt := sound.parent_lt hf hp
          obtain ⟨frames, chain, hlen⟩ := ih outer hlt (Nat.lt_trans hlt henv)
          exact ⟨_, .inside hf hp chain, Nat.succ_le_succ (Nat.le_trans hlen hlt)⟩

theorem Chain.length_pos (chain : h.Chain env frames) : 0 < frames.length := by
  cases chain <;> exact Nat.zero_lt_succ _

/-- The last frame is a root. -/
theorem Chain.getLast? (chain : h.Chain env frames) (sound : h.Sound) :
    frames.getLast? = some ⟨[], none⟩ := by
  induction chain with
  | @root env f hf hp =>
      have nested := sound.nested env f hf
      obtain ⟨bindings, parent⟩ := f
      cases hp
      obtain rfl : bindings = [] := nested
      rfl
  | inside _ _ chain ih =>
      rw [List.getLast?_cons, ih]
      rfl

/-- The walk outward meets the frames of the chain, as no frame stands before its parent. -/
theorem Chain.scopes (chain : h.Chain env frames) (sound : h.Sound) :
    h.scopes env = frames.map Frame.names := by
  induction chain with
  | root hf hp =>
      rw [Heap.scopes, hf]
      simp only [hp, List.map_cons, List.map_nil]
  | inside hf hp _ ih =>
      rw [Heap.scopes, hf]
      simp only [hp, if_pos (sound.parent_lt hf hp), ih, List.map_cons]

/-- A name is looked for in the frames of the chain, innermost first. -/
theorem Chain.find? (chain : h.Chain env frames) (sound : h.Sound) (x : Name) :
    (h.find? x env).map (·.2) = frames.findSome? (·.get? x) := by
  induction chain with
  | @root env f hf hp =>
      rw [Heap.find?, hf]
      cases hx : f.get? x <;> simp [hx, hp]
  | @inside env outer f frames hf hp _ ih =>
      cases hx : f.get? x with
      | some v => simp [find?_here hf hx, hx]
      | none => simp [find?_outer hf hx hp (sound.parent_lt hf hp), hx, ih]

theorem Chain.lookup (chain : h.Chain env frames) (sound : h.Sound) (x : Name) :
    env.lookup x h = match frames.findSome? (·.get? x) with
      | some v => .ok v h
      | none => .error (.unboundName x) h := by
  rw [← chain.find? sound x, Env.lookup]
  cases h.find? x env <;> rfl

theorem Chain.assign (chain : h.Chain env frames) (sound : h.Sound) (x : Name) (v : Value) :
    match frames.findSome? (·.get? x) with
    | some _ => ∃ owner, env.assign x v h = .ok () (h.rebind owner x v)
    | none => env.assign x v h = .error (.unboundName x) h := by
  rw [← chain.find? sound x]
  unfold Env.assign
  cases h.find? x env with
  | none => rfl
  | some binding => exact ⟨binding.1, rfl⟩

end Heap

end CoreLisp
