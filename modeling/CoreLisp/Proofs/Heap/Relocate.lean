import CoreLisp.Proofs.Heap.Operations

/-!
# Relocation

A heap that begins with a root can be put behind another one, and its root be shared
with a root that is there. The other places in it move up by the size of what is in
front, and the numbers of its procedures by those already given out. Nothing that can
be asked of the heap from a place in it changes, and every operation does behind the
other heap what it does alone: it gives the moved result and fails in the same way.
What is in front is not written, and of its frames none but the root is read.
-/
namespace CoreLisp

/-- The heap that a program finds, and the root in it that the program starts from. -/
structure Site where
  front : Heap
  root : Nat
  isRoot : front.frames[root]? = some ⟨[], none⟩

/-- A new root behind a heap. -/
def Heap.site (base : Heap) : Site :=
  ⟨base.newRoot.2, base.newRoot.1, Array.getElem?_push_size⟩

/-- The first frame is a root. -/
def Heap.Rooted (h : Heap) : Prop := h.frames[0]? = some ⟨[], none⟩

/-- The place of an environment on the site. -/
def Site.place (site : Site) : Nat → Nat
  | 0 => site.root
  | n + 1 => site.front.frames.size + n

/-- The procedure as it is on the site. -/
def Closure.relocate (site : Site) (f : Closure) : Closure :=
  { f with id := site.front.procedures + f.id, env := site.place f.env }

def Value.relocate (site : Site) : Value → Value
  | .box ref => .box (site.front.boxes.size + ref)
  | .procedure f => .procedure (f.relocate site)
  | v => v

def Frame.relocate (site : Site) (f : Frame) : Frame :=
  ⟨f.bindings.map fun b => (b.1, b.2.relocate site), f.parent.map site.place⟩

/-- The heap on the site. Its root is there already. -/
def Site.behind (site : Site) (h : Heap) : Heap :=
  ⟨site.front.frames ++ (h.frames.extract 1).map (Frame.relocate site),
    site.front.boxes ++ h.boxes.map (Value.relocate site),
    site.front.procedures + h.procedures⟩

variable {site : Site} {h h' : Heap} {env : Env} {x : Name} {v w : Value} {f : Frame}

namespace Site

theorem root_lt (site : Site) : site.root < site.front.frames.size :=
  (Array.getElem?_eq_some_iff.mp site.isRoot).1

@[simp] theorem place_lt_place_iff {i j : Nat} : site.place i < site.place j ↔ i < j := by
  have hroot := site.root_lt
  cases i <;> cases j <;> simp only [place] <;> omega

theorem place_inj {i j : Nat} : site.place i = site.place j ↔ i = j := by
  have hroot := site.root_lt
  cases i <;> cases j <;> simp only [place] <;> omega

end Site

namespace Value

@[simp] theorem text_relocate : (v.relocate site).text = v.text := by
  cases v <;> rfl

@[simp] theorem isTruthy_relocate : (v.relocate site).isTruthy = v.isTruthy := by
  cases v <;> rfl

/-- Two values are told apart wherever they are. -/
@[simp] theorem same_relocate : (v.relocate site).same (w.relocate site) = v.same w := by
  cases v <;> cases w <;> simp [relocate, same, Closure.relocate, Bool.beq_eq_decide_eq]

end Value

@[simp] theorem Datum.relocate_value (d : Datum) : d.value.relocate site = d.value := by
  cases d <;> rfl

namespace Frame

@[simp] theorem names_relocate : (f.relocate site).names = f.names := by
  simp [names, relocate, Function.comp_def]

@[simp] theorem parent_relocate :
    (f.relocate site).parent = f.parent.map site.place := rfl

theorem get?_relocate : (f.relocate site).get? x = (f.get? x).map (Value.relocate site) := by
  obtain ⟨bindings, parent⟩ := f
  simp only [get?, relocate]
  induction bindings with
  | nil => rfl
  | cons b bs ih =>
      obtain ⟨y, w⟩ := b
      by_cases hx : x = y
      · simp [hx]
      · simp [List.lookup_cons, beq_false_of_ne hx, ih]

theorem set_relocate : (f.set x v).relocate site = (f.relocate site).set x (v.relocate site) := by
  obtain ⟨bindings, parent⟩ := f
  simp only [set, relocate, List.map_map]
  congr 1
  refine List.map_congr_left fun b _ => ?_
  simp only [Function.comp]
  split <;> rfl

end Frame

namespace Heap

theorem Rooted.addFrame (rooted : h.Rooted) : (h.addFrame f).Rooted := by
  have hlt := (Array.getElem?_eq_some_iff.mp rooted).1
  rw [Rooted, frames_addFrame, Array.getElem?_push, if_neg (Nat.ne_of_lt hlt)]
  exact rooted

/-- A root has no binding that could be overwritten. -/
theorem Rooted.rebind {owner : Env} (rooted : h.Rooted) : (h.rebind owner x v).Rooted := by
  rw [Rooted, frames_rebind, Array.getElem?_modify, rooted]
  split <;> rfl

theorem Rooted.addBox (rooted : h.Rooted) : (h.addBox v).Rooted := rooted

theorem Rooted.setBox {ref : BoxRef} (rooted : h.Rooted) : (h.setBox ref v).Rooted := rooted

theorem Rooted.exists_size (rooted : h.Rooted) : ∃ n, h.frames.size = n + 1 := by
  have hlt := (Array.getElem?_eq_some_iff.mp rooted).1
  exact ⟨h.frames.size - 1, by omega⟩

theorem size_frames_behind (rooted : h.Rooted) :
    (site.behind h).frames.size = site.place h.frames.size := by
  obtain ⟨n, hn⟩ := rooted.exists_size
  simp [Site.behind, Site.place, hn]

@[simp] theorem size_boxes_behind :
    (site.behind h).boxes.size = site.front.boxes.size + h.boxes.size := by
  simp [Site.behind]

/-- What is in front stays where it is. -/
theorem getElem?_frames_front {i : Nat} (hi : i < site.front.frames.size) :
    (site.behind h).frames[i]? = site.front.frames[i]? :=
  Array.getElem?_append_left hi

theorem getElem?_boxes_front {i : Nat} (hi : i < site.front.boxes.size) :
    (site.behind h).boxes[i]? = site.front.boxes[i]? :=
  Array.getElem?_append_left hi

theorem getElem?_frames_behind (rooted : h.Rooted) (i : Env) :
    (site.behind h).frames[site.place i]? = h.frames[i]?.map (Frame.relocate site) := by
  cases i with
  | zero =>
      rw [Site.place, getElem?_frames_front site.root_lt, site.isRoot, rooted]
      rfl
  | succ i =>
      rw [Site.place, Site.behind, Array.getElem?_append_right (Nat.le_add_right _ _),
        Nat.add_sub_cancel_left, Array.getElem?_map, Array.getElem?_extract]
      split
      · rw [Nat.add_comm]
      · rw [Array.getElem?_eq_none (by omega)]

theorem getElem?_boxes_behind (i : Nat) :
    (site.behind h).boxes[site.front.boxes.size + i]? =
      h.boxes[i]?.map (Value.relocate site) := by
  rw [Site.behind, Array.getElem?_append_right (Nat.le_add_right _ _), Nat.add_sub_cancel_left,
    Array.getElem?_map]

@[simp] theorem contents_behind (ref : BoxRef) :
    (site.behind h).contents (site.front.boxes.size + ref) = (h.contents ref).relocate site := by
  unfold contents
  rw [Array.getD_eq_getD_getElem?, Array.getD_eq_getD_getElem?, getElem?_boxes_behind]
  cases h.boxes[ref]? <;> rfl

/-- The walk outward goes through the same frames. -/
theorem find?_behind (rooted : h.Rooted) : (site.behind h).find? x (site.place env) =
    (h.find? x env).map fun b => (site.place b.1, b.2.relocate site) := by
  induction env using Nat.strongRecOn with
  | ind env ih =>
      rw [find?, find?, getElem?_frames_behind rooted]
      cases h.frames[env]? with
      | none => rfl
      | some f =>
          simp only [Option.map_some, Frame.get?_relocate]
          cases f.get? x with
          | some v => rfl
          | none =>
              cases hparent : f.parent with
              | none => simp [hparent]
              | some outer =>
                  by_cases hlt : outer < env
                  · simp [hparent, hlt, ih outer hlt]
                  · simp [hparent, hlt]

theorem scopes_behind (rooted : h.Rooted) :
    (site.behind h).scopes (site.place env) = h.scopes env := by
  induction env using Nat.strongRecOn with
  | ind env ih =>
      rw [scopes, scopes, getElem?_frames_behind rooted]
      cases h.frames[env]? with
      | none => rfl
      | some f =>
          cases hparent : f.parent with
          | none => simp [hparent]
          | some outer =>
              by_cases hlt : outer < env
              · simp [hparent, hlt, ih outer hlt]
              · simp [hparent, hlt]

theorem rooted_newRoot : ({} : Heap).newRoot.2.Rooted := rfl

/-- A program starts on its site with what is in front of it. -/
theorem behind_newRoot : site.behind ({} : Heap).newRoot.2 = site.front := by
  simp [Site.behind, newRoot]

theorem behind_addFrame (rooted : h.Rooted) :
    site.behind (h.addFrame f) = (site.behind h).addFrame (f.relocate site) := by
  obtain ⟨n, hn⟩ := rooted.exists_size
  have hextract : (h.frames.push f).extract 1 (h.frames.size + 1) =
      (h.frames.extract 1 h.frames.size).push f := by
    rw [Array.extract_push, if_neg (by omega), if_pos (by omega)]
  simp [Site.behind, addFrame, hextract]

theorem behind_addBox : site.behind (h.addBox v) = (site.behind h).addBox (v.relocate site) := by
  simp [Site.behind, addBox]

/-- Nothing is bound in the root, so writing to it changes nothing in front. -/
theorem behind_rebind (rooted : h.Rooted) (owner : Env) :
    site.behind (h.rebind owner x v) =
      (site.behind h).rebind (site.place owner) x (v.relocate site) := by
  have frames : (site.behind (h.rebind owner x v)).frames =
      ((site.behind h).rebind (site.place owner) x (v.relocate site)).frames := by
    refine Array.ext_getElem? fun i => ?_
    rw [frames_rebind, Array.getElem?_modify]
    rcases Nat.lt_or_ge i site.front.frames.size with hi | hi
    · rw [getElem?_frames_front hi, getElem?_frames_front hi]
      split
      · rename_i howner
        cases owner with
        | zero =>
            rw [← howner, Site.place, site.isRoot]
            rfl
        | succ owner =>
            rw [Site.place] at howner
            omega
      · rfl
    · obtain ⟨j, rfl⟩ := Nat.exists_eq_add_of_le hi
      have hplace : site.front.frames.size + j = site.place (j + 1) := rfl
      rw [hplace, getElem?_frames_behind rooted, getElem?_frames_behind rooted.rebind,
        frames_rebind, Array.getElem?_modify]
      by_cases hj : owner = j + 1
      · simp [hj, Function.comp_def, Frame.set_relocate]
      · simp [hj, Site.place_inj]
  exact congrArg (Heap.mk · _ _) frames

theorem behind_setBox (ref : BoxRef) : site.behind (h.setBox ref v) =
    (site.behind h).setBox (site.front.boxes.size + ref) (v.relocate site) := by
  have boxes : (site.behind (h.setBox ref v)).boxes =
      ((site.behind h).setBox (site.front.boxes.size + ref) (v.relocate site)).boxes := by
    refine Array.ext_getElem? fun i => ?_
    rw [boxes_setBox, Array.getElem?_setIfInBounds]
    rcases Nat.lt_or_ge i site.front.boxes.size with hi | hi
    · rw [getElem?_boxes_front hi, getElem?_boxes_front hi, if_neg (by omega)]
    · obtain ⟨j, rfl⟩ := Nat.exists_eq_add_of_le hi
      rw [getElem?_boxes_behind, getElem?_boxes_behind, boxes_setBox, Array.getElem?_setIfInBounds]
      by_cases hj : ref = j
      · by_cases hlt : j < h.boxes.size <;> simp [hj, hlt]
      · simp [hj]
  exact congrArg (Heap.mk _ · _) boxes

end Heap

namespace Action

variable {α β γ δ : Type} {r : α → β} {t : γ → δ} {a : Action α} {b : Action β}

/-- What an action comes to, as it is on the site. A cause of failure does not refer
to the heap. -/
def moved (site : Site) (r : α → β) :
    EStateM.Result EvalError Heap α → EStateM.Result EvalError Heap β
  | .ok x h => .ok (r x) (site.behind h)
  | .error e h => .error e (site.behind h)

/-- The heap that an action leaves. -/
def left : EStateM.Result EvalError Heap α → Heap
  | .ok _ h => h
  | .error _ h => h

/-- The second action does on the site what the first one does alone, which leaves the
root as it is. -/
def Relocates (site : Site) (r : α → β) (a : Action α) (b : Action β) : Prop :=
  ∀ h : Heap, h.Rooted → b (site.behind h) = moved site r (a h) ∧ (left (a h)).Rooted

theorem relocates_pure (x : α) : Relocates site r (pure x) (pure (r x)) :=
  fun _ rooted => ⟨rfl, rooted⟩

theorem relocates_throw (e : EvalError) : Relocates site r (throw e) (throw e) :=
  fun _ rooted => ⟨rfl, rooted⟩

theorem Relocates.bind {f : α → Action γ} {g : β → Action δ} (first : Relocates site r a b)
    (rest : ∀ x, Relocates site t (f x) (g (r x))) : Relocates site t (a >>= f) (b >>= g) := by
  intro h rooted
  change EStateM.bind b g (site.behind h) = moved site t (EStateM.bind a f h) ∧
    (left (EStateM.bind a f h)).Rooted
  unfold EStateM.bind
  obtain ⟨same, rooted₁⟩ := first h rooted
  rw [same]
  cases ha : a h with
  | ok x h₁ =>
      rw [ha] at rooted₁
      exact rest x h₁ rooted₁
  | error e h₁ =>
      rw [ha] at rooted₁
      exact ⟨rfl, rooted₁⟩

end Action

open CoreLisp.Action

namespace Env

variable {names : List Name} {values : List Value}

theorem relocates_extend : Relocates site site.place (env.extend names values)
    (Env.extend (site.place env) names (values.map (Value.relocate site))) := by
  intro h rooted
  by_cases hlen : names.length = values.length
  · by_cases hdup : names.Nodup
    · have ok : env.extend names values h = .ok h.frames.size (h.addFrame _) :=
        extend_eq_ok_iff.mpr ⟨hlen, hdup, rfl, rfl⟩
      rw [ok]
      refine ⟨extend_eq_ok_iff.mpr ⟨by simpa using hlen, hdup, ?_, ?_⟩, rooted.addFrame⟩
      · exact (Heap.size_frames_behind rooted).symm
      · rw [Heap.behind_addFrame rooted, Frame.relocate, List.zip_map_right]
        rfl
    · simpa [extend, hlen, hdup, moved, left] using rooted
  · simpa [extend, hlen, moved, left] using rooted

theorem relocates_lookup :
    Relocates site (Value.relocate site) (env.lookup x) (Env.lookup (site.place env) x) := by
  intro h rooted
  unfold lookup
  rw [Heap.find?_behind rooted]
  cases h.find? x env <;> exact ⟨rfl, rooted⟩

theorem relocates_assign : Relocates site id (env.assign x v)
    (Env.assign (site.place env) x (v.relocate site)) := by
  intro h rooted
  unfold assign
  rw [Heap.find?_behind rooted]
  cases h.find? x env with
  | none => exact ⟨rfl, rooted⟩
  | some b =>
      have heap : (site.behind h).rebind (site.place b.1) x (v.relocate site) =
          site.behind (h.rebind b.1 x v) := (Heap.behind_rebind rooted b.1).symm
      exact ⟨congrArg (EStateM.Result.ok ()) heap, rooted.rebind⟩

theorem relocates_assignAll {bindings : List (Name × Value)} :
    Relocates site id (env.assignAll bindings) (Env.assignAll (site.place env)
      (bindings.map fun b => (b.1, b.2.relocate site))) := by
  induction bindings with
  | nil => exact relocates_pure _
  | cons b rest ih => exact relocates_assign.bind fun _ => ih

end Env

theorem BoxRef.relocates_new :
    Relocates site (site.front.boxes.size + ·) (BoxRef.new v) (BoxRef.new (v.relocate site)) := by
  intro h rooted
  have heap : (site.behind h).addBox (v.relocate site) = site.behind (h.addBox v) :=
    Heap.behind_addBox.symm
  refine ⟨?_, rooted.addBox⟩
  simp only [BoxRef.new, moved, Heap.size_boxes_behind]
  exact congrArg (EStateM.Result.ok _) heap

theorem BoxRef.relocates_get {ref : BoxRef} :
    Relocates site (Value.relocate site) ref.get (BoxRef.get (site.front.boxes.size + ref)) := by
  intro h rooted
  exact ⟨congrArg (EStateM.Result.ok · _) (Heap.contents_behind ref), rooted⟩

theorem BoxRef.relocates_set {ref : BoxRef} :
    Relocates site id (ref.set v) (BoxRef.set (site.front.boxes.size + ref) (v.relocate site)) := by
  intro h rooted
  exact ⟨congrArg (EStateM.Result.ok ()) (Heap.behind_setBox ref).symm, rooted.setBox⟩

theorem Closure.relocates_new {params : List Name} {body : Expr} :
    Relocates site (Closure.relocate site) (Closure.new params body env)
      (Closure.new params body (site.place env)) :=
  fun _ rooted => ⟨rfl, rooted⟩

end CoreLisp
