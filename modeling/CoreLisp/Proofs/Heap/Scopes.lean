import CoreLisp.Proofs.Primitive.Standard

/-!
# Scopes and the growth of the heap

The scopes of an environment are the names of its frames. Whether a name is
found depends on nothing else, and no operation changes the names or the parent
of a frame: a heap only grows. So what is said about the scopes of an environment
once stays true.
-/
namespace CoreLisp

theorem Frame.get?_eq_none_iff {f : Frame} {x : Name} : f.get? x = none ↔ x ∉ f.names := by
  rw [← Option.not_isSome_iff_eq_none, Frame.isSome_get?_iff]

/-- A list with one more element at its end, as for arrays. -/
theorem getElem?_snoc {α : Type} {xs : List α} {a : α} {i : Nat} :
    (xs ++ [a])[i]? = if i = xs.length then some a else xs[i]? := by
  have pushed : (xs.toArray.push a)[i]? = _ := Array.getElem?_push
  simpa using pushed

namespace Heap

variable {h h₁ h' : Heap} {env outer inner owner : Env} {x : Name} {v : Value} {ref : BoxRef}

/-- Every frame stays at its place with its names and its parent, and no box
disappears. -/
structure Grows (h h' : Heap) : Prop where
  frame : ∀ {i : Env} {f : Frame}, h.frames[i]? = some f →
    ∃ f', h'.frames[i]? = some f' ∧ f'.names = f.names ∧ f'.parent = f.parent
  boxes_le : h.boxes.size ≤ h'.boxes.size

/-- A frame inside `outer` that binds these names stands at `inner`; with no names
there is no frame in between. -/
def Enters (h : Heap) (outer : Env) : Option (List Name) → Env → Prop
  | none, inner => inner = outer
  | some names, inner =>
      outer < inner ∧ ∃ f, h.frames[inner]? = some f ∧ f.names = names ∧ f.parent = some outer

namespace Grows

theorem refl (h : Heap) : h.Grows h := ⟨fun hf => ⟨_, hf, rfl, rfl⟩, Nat.le_refl _⟩

theorem trans (first : h.Grows h₁) (second : h₁.Grows h') : h.Grows h' := by
  refine ⟨?_, Nat.le_trans first.boxes_le second.boxes_le⟩
  intro i f hf
  obtain ⟨f₁, hf₁, names₁, parent₁⟩ := first.frame hf
  obtain ⟨f', hf', names', parent'⟩ := second.frame hf₁
  exact ⟨f', hf', names'.trans names₁, parent'.trans parent₁⟩

theorem frames_le (grows : h.Grows h') : h.frames.size ≤ h'.frames.size := by
  refine Nat.le_of_not_lt fun hlt => ?_
  obtain ⟨f', hf', -⟩ := grows.frame (Array.getElem?_eq_getElem hlt)
  exact Nat.lt_irrefl _ (Array.getElem?_eq_some_iff.mp hf').1

theorem addFrame (h : Heap) (frame : Frame) : h.Grows (h.addFrame frame) := by
  refine ⟨?_, Nat.le_refl _⟩
  intro i f hf
  have hi := (Array.getElem?_eq_some_iff.mp hf).1
  refine ⟨f, ?_, rfl, rfl⟩
  rw [frames_addFrame, Array.getElem?_push, if_neg (Nat.ne_of_lt hi)]
  exact hf

theorem rebind (h : Heap) (owner : Env) (x : Name) (v : Value) : h.Grows (h.rebind owner x v) := by
  refine ⟨?_, Nat.le_refl _⟩
  intro i f hf
  rw [frames_rebind, Array.getElem?_modify]
  split
  · exact ⟨f.set x v, by rw [hf, Option.map_some], Frame.names_set f x v, Frame.parent_set f x v⟩
  · exact ⟨f, hf, rfl, rfl⟩

theorem addBox (h : Heap) (v : Value) : h.Grows (h.addBox v) :=
  ⟨fun hf => ⟨_, hf, rfl, rfl⟩, by simp⟩

theorem setBox (h : Heap) (ref : BoxRef) (v : Value) : h.Grows (h.setBox ref v) :=
  ⟨fun hf => ⟨_, hf, rfl, rfl⟩, by simp⟩

theorem enters {scope : Option (List Name)} (grows : h.Grows h')
    (enters : h.Enters outer scope inner) : h'.Enters outer scope inner := by
  cases scope with
  | none => exact enters
  | some names =>
      obtain ⟨hlt, f, hf, hnames, hparent⟩ := enters
      obtain ⟨f', hf', names', parent'⟩ := grows.frame hf
      exact ⟨hlt, f', hf', names'.trans hnames, parent'.trans hparent⟩

end Grows

theorem scopes_of_le (henv : h.frames.size ≤ env) : h.scopes env = [] := by
  rw [scopes, Array.getElem?_eq_none henv]

/-- An environment with scopes stands on the heap. -/
theorem lt_size_of_scopes {names : List Name} {scopes : List (List Name)}
    (hscopes : h.scopes env = names :: scopes) : env < h.frames.size := by
  refine Nat.lt_of_not_le fun hle => ?_
  rw [scopes_of_le hle] at hscopes
  cases hscopes

/-- The scopes of an environment stay what they are. Induction outward along the
frames of the environment. -/
theorem Grows.scopes (grows : h.Grows h') (henv : env < h.frames.size) :
    h'.scopes env = h.scopes env := by
  induction env using Nat.strongRecOn with
  | ind env ih =>
      have hf := Array.getElem?_eq_getElem henv
      obtain ⟨f', hf', hnames, hparent⟩ := grows.frame hf
      rw [Heap.scopes, Heap.scopes, hf, hf']
      simp only [hnames, hparent]
      cases h.frames[env].parent with
      | none => rfl
      | some outer =>
          by_cases hlt : outer < env
          · simp only [if_pos hlt, ih outer hlt (Nat.lt_trans hlt henv)]
          · simp only [if_neg hlt]

theorem Enters.scopes {names : List Name} (enters : h.Enters outer (some names) inner) :
    h.scopes inner = names :: h.scopes outer := by
  obtain ⟨hlt, f, hf, hnames, hparent⟩ := enters
  rw [Heap.scopes, hf]
  simp only [hparent, if_pos hlt, hnames]

/-- A name is not found when no scope has it. -/
theorem find?_eq_none_iff : h.find? x env = none ↔ ∀ names ∈ h.scopes env, x ∉ names := by
  induction env using Nat.strongRecOn with
  | ind env ih =>
      rw [find?, Heap.scopes]
      cases hf : h.frames[env]? with
      | none => simp
      | some f =>
          have here := Frame.isSome_get?_iff (f := f) (x := x)
          cases hparent : f.parent with
          | none => cases hx : f.get? x <;> simpa [hx, hparent] using here
          | some outer =>
              by_cases hlt : outer < env
              · cases hx : f.get? x with
                | some w =>
                    have bound : x ∈ f.names := by simpa [hx] using here
                    simp [hx, hparent, hlt, bound]
                | none =>
                    have missing : x ∉ f.names := by simpa [hx] using here
                    simp [hx, hparent, hlt, ih outer hlt, missing]
              · cases hx : f.get? x <;> simpa [hx, hparent, hlt] using here

theorem find?_here {f : Frame} (hf : h.frames[env]? = some f) (hx : f.get? x = some v) :
    h.find? x env = some (env, v) := by
  rw [find?, hf]
  simp only [hx]

theorem find?_outer {f : Frame} (hf : h.frames[env]? = some f) (hx : f.get? x = none)
    (hp : f.parent = some outer) (hlt : outer < env) : h.find? x env = h.find? x outer := by
  rw [find?, hf]
  simp only [hx, hp, if_pos hlt]

/-- What is found is in the frame of the environment, or it is found from the next one. -/
theorem find?_cases (found : h.find? x env = some (owner, v)) :
    ∃ f, h.frames[env]? = some f ∧ ((f.get? x = some v ∧ owner = env) ∨
      f.get? x = none ∧ ∃ outer < env, f.parent = some outer ∧
        h.find? x outer = some (owner, v)) := by
  rw [find?] at found
  cases hf : h.frames[env]? with
  | none => simp [hf] at found
  | some f =>
      refine ⟨f, rfl, ?_⟩
      simp only [hf] at found
      cases hx : f.get? x with
      | some w =>
          simp only [hx] at found
          cases found
          exact .inl ⟨rfl, rfl⟩
      | none =>
          cases hp : f.parent with
          | none => simp [hx, hp] at found
          | some outer =>
              simp only [hx, hp] at found
              split at found
              · exact .inr ⟨rfl, outer, ‹_›, rfl, found⟩
              · cases found

/-- What is found is in the frame that it is said to be in. -/
theorem get?_of_find? (found : h.find? x env = some (owner, v)) :
    ∃ f, h.frames[owner]? = some f ∧ f.get? x = some v := by
  induction env using Nat.strongRecOn with
  | ind env ih =>
      obtain ⟨f, hf, ⟨hx, rfl⟩ | ⟨-, outer, hlt, -, found⟩⟩ := find?_cases found
      · exact ⟨f, hf, hx⟩
      · exact ih outer hlt found

end Heap

namespace Env

variable {env inner : Env} {names : List Name} {values : List Value} {x : Name} {v : Value}
variable {h h' : Heap} {u : Unit}

theorem grows_of_extend (ok : env.extend names values h = .ok inner h') : h.Grows h' := by
  obtain ⟨-, -, -, rfl⟩ := extend_eq_ok_iff.mp ok
  exact .addFrame h _

/-- The new frame binds the names inside the environment. -/
theorem enters_of_extend (ok : env.extend names values h = .ok inner h')
    (henv : env < h.frames.size) : h'.Enters env (some names) inner := by
  obtain ⟨hlen, -, rfl, rfl⟩ := extend_eq_ok_iff.mp ok
  refine ⟨henv, ⟨names.zip values, some env⟩, by simp, ?_, rfl⟩
  exact List.map_fst_zip (Nat.le_of_eq hlen)

theorem grows_of_assign (ok : env.assign x v h = .ok u h') : h.Grows h' := by
  obtain ⟨owner, w, -, rfl⟩ := assign_eq_ok_iff.mp ok
  exact .rebind h owner x v

theorem grows_of_assignAll {bindings : List (Name × Value)}
    (ok : env.assignAll bindings h = .ok u h') : h.Grows h' := by
  refine assignAll_invariant (P := h.Grows) ?_ ok (.refl h)
  intro x v u h₁ h₂ _ ok grows
  exact grows.trans (grows_of_assign ok)

/-- The names of a frame are found in the frame itself. -/
theorem assign_own_frame {f : Frame} (hf : h.frames[env]? = some f) (hx : x ∈ f.names) :
    env.assign x v h = .ok () (h.rebind env x v) := by
  obtain ⟨old, hold⟩ := Option.isSome_iff_exists.mp (Frame.isSome_get?_iff.mpr hx)
  exact assign_eq_ok_iff.mpr ⟨env, old, Heap.find?_here hf hold, rfl⟩

/-- Assignments to names that are in scope succeed one after the other. -/
theorem assignAll_ok {bindings : List (Name × Value)}
    (bound : ∀ b ∈ bindings, ∃ names ∈ h.scopes env, b.1 ∈ names) :
    ∃ h', env.assignAll bindings h = .ok () h' := by
  induction bindings generalizing h with
  | nil => exact ⟨h, rfl⟩
  | cons b rest ih =>
      obtain ⟨x, v⟩ := b
      obtain ⟨⟨names, hnames, hx⟩, later⟩ := List.forall_mem_cons.mp bound
      cases found : h.find? x env with
      | none => exact absurd hx (Heap.find?_eq_none_iff.mp found names hnames)
      | some binding =>
          obtain ⟨owner, w⟩ := binding
          have henv : env < h.frames.size := by
            cases hscopes : h.scopes env with
            | nil => simp [hscopes] at hnames
            | cons => exact Heap.lt_size_of_scopes hscopes
          have first : env.assign x v h = .ok () (h.rebind owner x v) :=
            assign_eq_ok_iff.mpr ⟨owner, w, found, rfl⟩
          -- the scopes are the same after the first assignment
          rw [← (Heap.Grows.rebind h owner x v).scopes henv] at later
          obtain ⟨h', ok⟩ := ih later
          exact ⟨h', Action.bind_eq_ok_iff.mpr ⟨(), _, first, ok⟩⟩

/-- The names of a frame can be given values. -/
theorem assignAll_frame_ok {outer : Env} {bindings : List (Name × Value)}
    (enters : h.Enters outer (some names) inner) (bound : ∀ b ∈ bindings, b.1 ∈ names) :
    ∃ h', inner.assignAll bindings h = .ok () h' := by
  refine assignAll_ok fun b hb => ?_
  rw [enters.scopes]
  exact ⟨names, List.mem_cons_self, bound b hb⟩

theorem assignAll_ne_error {outer : Env} {e : EvalError}
    (enters : h.Enters outer (some names) inner) :
    inner.assignAll (names.zip values) h ≠ .error e h' := by
  have bound : ∀ b ∈ names.zip values, b.1 ∈ names := fun b hb => (List.of_mem_zip hb).1
  obtain ⟨h₁, ok⟩ := assignAll_frame_ok enters bound
  simp [ok]

end Env

/-- The primitives take nothing from the heap. -/
def Table.Grows (t : Table) : Prop :=
  ∀ name args v h h', t.apply name args h = .ok v h' → h.Grows h'

theorem Table.standard_grows : standard.Grows := by
  intro name args v h h' ok
  obtain ⟨b, -, applied⟩ := apply_standard_eq_ok_iff.mp ok
  cases applied with
  | box => exact .addBox h _
  | setBox => exact .setBox h _ _
  | _ => exact .refl h

end CoreLisp
