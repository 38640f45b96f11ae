import CoreLisp.Proofs.Heap.Relocate

/-!
# What can be seen of a value

An embedder sees the type and the text of a value and the number of arguments of a
procedure, and can open a box to see what is in it. A view is all that is seen down
to some depth. Relocation does not change it, and a value that a program returned
shows the same as long as the cells of the heap are kept.
-/
namespace CoreLisp

/-- What is seen of a value without opening it. -/
structure Shown where
  typeName : String
  text : String
  arity : Option Nat
deriving DecidableEq, Repr

/-- The number of arguments that a procedure takes. -/
def Value.arity? : Value → Option Nat
  | .procedure f => some f.params.length
  | _ => none

def Value.shown (v : Value) : Shown := ⟨v.typeName, v.text, v.arity?⟩

/-- What is seen of a value, then of what it holds if it is a box, and so on, down to
the depth. -/
def Heap.view (h : Heap) : Nat → Value → List Shown
  | 0, _ => []
  | depth + 1, v => v.shown ::
      match v with
      | .box ref => h.view depth (h.contents ref)
      | _ => []

/-- A box that the value refers to is on the heap. -/
def Value.OnHeap (h : Heap) : Value → Prop
  | .box ref => ref < h.boxes.size
  | _ => True

/-- The frames and boxes of the first heap are in the second one with the same
contents. -/
structure Heap.Kept (h h' : Heap) : Prop where
  frames : ∀ i < h.frames.size, h'.frames[i]? = h.frames[i]?
  boxes : ∀ i < h.boxes.size, h'.boxes[i]? = h.boxes[i]?

variable {site : Site} {h h₁ h' : Heap} {v : Value}

namespace Heap

theorem view_behind (depth : Nat) :
    (site.behind h).view depth (v.relocate site) = h.view depth v := by
  induction depth generalizing v with
  | zero => rfl
  | succ depth ih =>
      cases v with
      | box ref =>
          have inside := @ih (h.contents ref)
          rw [← contents_behind] at inside
          exact congrArg _ inside
      | _ => rfl

namespace Kept

theorem refl (h : Heap) : h.Kept h := ⟨fun _ _ => rfl, fun _ _ => rfl⟩

theorem frames_le (kept : h.Kept h') : h.frames.size ≤ h'.frames.size := by
  refine Nat.le_of_not_lt fun hlt => ?_
  have same := kept.frames _ hlt
  rw [Array.getElem?_eq_none (Nat.le_refl _), Array.getElem?_eq_getElem hlt] at same
  cases same

theorem boxes_le (kept : h.Kept h') : h.boxes.size ≤ h'.boxes.size := by
  refine Nat.le_of_not_lt fun hlt => ?_
  have same := kept.boxes _ hlt
  rw [Array.getElem?_eq_none (Nat.le_refl _), Array.getElem?_eq_getElem hlt] at same
  cases same

theorem trans (first : h.Kept h₁) (second : h₁.Kept h') : h.Kept h' := by
  refine ⟨?_, ?_⟩
  · intro i hi
    exact (second.frames i (Nat.lt_of_lt_of_le hi first.frames_le)).trans (first.frames i hi)
  · intro i hi
    exact (second.boxes i (Nat.lt_of_lt_of_le hi first.boxes_le)).trans (first.boxes i hi)

/-- What is put behind a heap leaves it as it is. -/
theorem behind (site : Site) (h : Heap) : site.front.Kept (site.behind h) :=
  ⟨fun _ hi => getElem?_frames_front hi, fun _ hi => getElem?_boxes_front hi⟩

/-- The new root of a program changes nothing either. -/
theorem behind_site (base h : Heap) : base.Kept (base.site.behind h) := by
  have root : base.Kept base.site.front := by
    refine ⟨?_, fun _ _ => rfl⟩
    intro i hi
    exact Array.getElem?_push_lt hi |>.trans (Array.getElem?_eq_getElem hi).symm
  exact root.trans (.behind base.site h)

theorem contents {ref : BoxRef} (kept : h.Kept h') (href : ref < h.boxes.size) :
    h'.contents ref = h.contents ref := by
  unfold Heap.contents
  rw [Array.getD_eq_getD_getElem?, Array.getD_eq_getD_getElem?, kept.boxes ref href]

end Kept

end Heap

end CoreLisp
