import CoreLisp.Proofs.Machine.Places
import CoreLisp.Proofs.Machine.Scope

/-!
# Boxes are equal when they are aliases

An embedder runs programs and calls primitives, in any order and on one heap. Each
execution of `box` gets a number, and every place is marked with the number of the
execution that its box stems from. The marks are not part of the machine: they go along
with the flow of the values, and nothing but an execution of `box` makes a new one. Two
boxes are equal exactly if their marks are the same, wherever they have been moved to,
and a write through one of them is seen through exactly those others that have its mark.
-/
namespace CoreLisp

/-- The embedder has the value: it got it before, or can write it down. -/
def World.Offers (w : World) : Source → Value → Prop
  | .place (.held index), v => w.held[index]? = some v
  | .plain, v => ∀ ref, v ≠ .box ref
  | _, _ => False

/-- What can happen on the heap of a session: a program begins, makes a step, ends with a
value that the embedder keeps, or fails; or the embedder calls a primitive. -/
inductive World.Event : World → Flow → World → Prop
  | begin {h : Heap} {held : List Value} (e : Expr) :
      Event ⟨h, none, held⟩ [] ⟨h.newRoot.2, some (.initial e h.newRoot.1), held⟩
  | step {s s' : State} {h h' : Heap} {held : List Value} : Machine.step .standard s h = .ok s' h' →
      Event ⟨h, some s, held⟩ (s.flow h) ⟨h', some s', held⟩
  | finish {s : State} {h : Heap} {held : List Value} {v : Value} : s.control = .halted v →
      Event ⟨h, some s, held⟩ [(.held held.length, .place .control)] ⟨h, none, held ++ [v]⟩
  | fail {s : State} {h h' : Heap} {held : List Value} {err : EvalError} :
      Machine.step .standard s h = .error err h' → Event ⟨h, some s, held⟩ [] ⟨h', none, held⟩
  | apply {h h' : Heap} {held : List Value} {name : Name} {args : List Value}
      {sources : List Source} {v : Value} : Table.standard.apply name args h = .ok v h' →
      List.Forall₂ (World.Offers ⟨h, none, held⟩) sources args →
      Event ⟨h, none, held⟩ (.primitive name args sources (.held held.length) h)
        ⟨h', none, held ++ [v]⟩
  | refuse {h h' : Heap} {held : List Value} {name : Name} {args : List Value} {err : EvalError} :
      Table.standard.apply name args h = .error err h' →
      Event ⟨h, none, held⟩ [] ⟨h', none, held⟩

/-- The execution of `box` that the box at a place stems from, and the number of
executions so far. -/
structure Marks where
  mark : Place → Option Nat
  made : Nat

def Source.mark (marks : Marks) : Source → Option Nat
  | .place p => marks.mark p
  | .box => some marks.made
  | .plain => none

/-- The marks go where the values go. -/
def Marks.after (marks : Marks) (ws : Flow) : Marks :=
  ⟨fun p => (ws.origin p).mark marks, marks.made + ws.boxes⟩

/-- Beginning with nothing, events can lead to the world, with these marks in it. -/
inductive World.Happens : World → Marks → Prop
  | start : Happens ⟨{}, none, []⟩ ⟨fun _ => none, 0⟩
  | event {w w' : World} {marks : Marks} {ws : Flow} : Happens w marks → w.Event ws w' →
      Happens w' (marks.after ws)

variable {w w' : World} {marks : Marks} {ws : Flow} {h h' : Heap} {v : Value}

def Value.ref? : Value → Option BoxRef
  | .box ref => some ref
  | _ => none

/-- The marks number the boxes in the order in which they stand on the heap. -/
structure Marks.Correct (marks : Marks) (w : World) : Prop where
  made : marks.made = w.heap.boxes.size
  mark : ∀ p v, w.valueAt p = some v → marks.mark p = v.ref?
  onHeap : ∀ p v, w.valueAt p = some v → v.OnHeap w.heap

/-- A value from a source has the mark of its source, and a new box is the next one. -/
theorem Source.Gives.marked {source : Source} (gives : source.Gives w v)
    (correct : marks.Correct w) (grown : w.heap.boxes.size ≤ h.boxes.size)
    (made : source = .box → w.heap.boxes.size < h.boxes.size) :
    source.mark marks = v.ref? ∧ v.OnHeap h := by
  cases source with
  | place p => exact ⟨correct.mark p v gives, (correct.onHeap p v gives).mono grown⟩
  | box =>
      obtain rfl := gives
      exact ⟨congrArg some correct.made, made rfl⟩
  | plain =>
      cases v with
      | box ref => exact absurd rfl (gives ref)
      | _ => exact ⟨rfl, trivial⟩

/-- The numbering stays correct along any flow. -/
theorem Marks.Correct.after (correct : marks.Correct w) (follows : w.Follows ws w') :
    (marks.after ws).Correct w' := by
  have grown : w.heap.boxes.size ≤ w'.heap.boxes.size := follows.boxes ▸ Nat.le_add_right _ _
  have marked : ∀ p v, w'.valueAt p = some v →
      (marks.after ws).mark p = v.ref? ∧ v.OnHeap w'.heap := by
    intro p v hv
    refine (follows.values p v hv).marked correct grown fun hbox => ?_
    rw [follows.boxes]
    exact Nat.lt_add_of_pos_right (Flow.boxes_pos hbox)
  refine ⟨?_, fun p v hv => (marked p v hv).1, fun p v hv => (marked p v hv).2⟩
  rw [Marks.after, follows.boxes, correct.made]

/-- A program that is running has begun on some heap. -/
def World.Begun (w : World) : Prop :=
  ∀ s, w.running = some s → ∃ e h, Machine.Reachable .standard e h s w.heap

namespace World.Event

theorem begun (event : w.Event ws w') (begun : w.Begun) : w'.Begun := by
  cases event with
  | begin e =>
      intro s hs
      cases hs
      exact ⟨e, _, 0, .done _ _⟩
  | step hstep =>
      intro s hs
      cases hs
      obtain ⟨e, h, reached⟩ := begun _ rfl
      exact ⟨e, h, reached.step hstep⟩
  | finish | fail | apply | refuse => nofun

/-- What the embedder offers is where it is said to be, and is no new box. -/
theorem gives_of_offers {source : Source} (offers : w.Offers source v) :
    source ≠ .box ∧ source.Gives w v := by
  cases source with
  | place p =>
      cases p with
      | held index => exact ⟨nofun, offers⟩
      | _ => cases offers
  | box => cases offers
  | plain => exact ⟨nofun, offers⟩

/-- The embedder keeps one more value, and only boxes have been written. -/
theorem follows_keeping {running : Option State} {held : List Value}
    (gives : (ws.origin (.held held.length)).Gives ⟨h, running, held⟩ v)
    (inside : ∀ ref u, h'.boxes[ref]? = some u →
      (ws.origin (.inside ref)).Gives ⟨h, running, held⟩ u)
    (others : ∀ p, p ≠ .held held.length → (∀ ref, p ≠ .inside ref) → ws.origin p = .place p)
    (frames : h'.frames = h.frames) (boxes : h'.boxes.size = h.boxes.size + ws.boxes) :
    World.Follows ⟨h, running, held⟩ ws ⟨h', none, held ++ [v]⟩ := by
  refine ⟨?_, boxes⟩
  intro p u hu
  cases p with
  | control | waiting => cases hu
  | cell place x =>
      rw [others (.cell place x) nofun fun _ => nofun]
      rw [World.valueAt, Heap.cell?, frames] at hu
      exact hu
  | inside ref => exact inside ref u hu
  | held index =>
      rw [World.valueAt, getElem?_snoc] at hu
      split at hu
      · rename_i hindex
        cases hu
        exact hindex ▸ gives
      · rename_i hindex
        rw [others (.held index) (by simpa using hindex) (by simp)]
        exact hu

/-- In every event the values come from where its flow says. -/
theorem follows (event : w.Event ws w') (begun : w.Begun) : w.Follows ws w' := by
  cases event with
  | @begin h held e =>
      refine ⟨?_, rfl⟩
      intro p v hv
      cases p with
      | control => cases hv
      | waiting depth index =>
          rw [World.valueAt, Option.bind_some, State.initial, Stack.valueAt_push] at hv
          split at hv <;> cases hv
      | cell place x =>
          have hroot : h.newRoot.2 = h.addFrame ⟨[], none⟩ := rfl
          rw [World.valueAt, hroot, Heap.cell?, Heap.frames_addFrame, Array.getElem?_push] at hv
          split at hv
          · cases hv
          · exact hv
      | inside | held => exact hv
  | step hstep => exact (Machine.step_eq_ok_iff.mp hstep).follows
  | @finish s h held v hv =>
      refine follows_keeping ?_ (fun ref u hu => hu) ?_ rfl rfl
      · rw [Flow.origin_cons, if_pos rfl, Source.Gives, World.valueAt, Option.bind_some, hv]
        rfl
      · intro p hp _
        rw [Flow.origin_cons, if_neg hp, Flow.origin_nil]
  | fail hfail =>
      obtain ⟨e, h, reached⟩ := begun _ rfl
      obtain rfl := reached.heap_eq_of_error hfail
      refine ⟨?_, rfl⟩
      intro p v hv
      cases p with
      | control | waiting => cases hv
      | cell | inside | held => exact hv
  | @apply _ _ held _ _ _ _ ok offers =>
      have hresult : ∀ ref, Place.held held.length ≠ .inside ref := by simp
      obtain ⟨b, rfl, applied⟩ := Table.apply_standard_eq_ok_iff.mp ok
      obtain ⟨old, gives⟩ := (List.forall₂_and_left _ _).mp (offers.imp fun _ _ => gives_of_offers)
      rw [Flow.primitive_eq]
      obtain ⟨result, inside, others, frames, boxes⟩ :=
        Builtin.Applied.follows applied gives old hresult
      exact follows_keeping result inside others frames boxes
  | refuse refused =>
      obtain ⟨rfl, -⟩ := Table.apply_standard_error refused
      refine ⟨?_, rfl⟩
      intro p v hv
      exact hv

end World.Event

/-- Induction on the events. -/
theorem World.Happens.correct (happens : World.Happens w marks) :
    marks.Correct w ∧ w.Begun := by
  induction happens with
  | start =>
      refine ⟨⟨rfl, ?_, ?_⟩, nofun⟩
      · intro p v hv
        cases p <;> simp [World.valueAt, Heap.cell?] at hv
      · intro p v hv
        cases p <;> simp [World.valueAt, Heap.cell?] at hv
  | event _ event ih => exact ⟨ih.1.after (event.follows ih.2), event.begun ih.2⟩

theorem Heap.contents_setBox {a b : BoxRef} (ha : a < h.boxes.size) :
    (h.setBox a v).contents b = if a = b then v else h.contents b := by
  rw [contents, contents, boxes_setBox, Array.getD_eq_getD_getElem?, Array.getD_eq_getD_getElem?,
    Array.getElem?_setIfInBounds, if_pos ha]
  split <;> rfl

theorem Table.standard_box {v : Value} {h : Heap} :
    standard.apply "box" [v] h = .ok (.box h.boxes.size) (h.addBox v) :=
  apply_standard_eq_ok_iff.mpr ⟨.box, rfl, .box⟩

/-- After any events, two boxes on the heap, on the stack or with the embedder are equal
if and only if they stem from the same execution of `box`. A write through one of them is
seen through the other if they do, and otherwise not, and it changes nothing else on the
heap. A new box is equal to no value that was there before. In whatever happens next, a
value that is moved is the one that was at the place it is moved from. -/
theorem boxes_equal_iff_aliases (w : World) (marks : Marks) (happens : w.Happens marks) :
    (∀ p q a b, w.valueAt p = some (.box a) → w.valueAt q = some (.box b) →
      (∃ k < marks.made, marks.mark p = some k) ∧
      Table.standard.apply "is_equal" [.box a, .box b] w.heap =
        .ok (.boolean (marks.mark p = marks.mark q)) w.heap ∧
      ∀ v, ∃ h', Table.standard.apply "set_box" [.box a, v] w.heap = .ok .unit h' ∧
        h'.contents b = (if marks.mark p = marks.mark q then v else w.heap.contents b) ∧
        h'.frames = w.heap.frames ∧ h'.procedures = w.heap.procedures ∧
        h'.boxes.size = w.heap.boxes.size ∧
        ∀ ref, ref ≠ a → h'.boxes[ref]? = w.heap.boxes[ref]?) ∧
    (∀ v fresh h', Table.standard.apply "box" [v] w.heap = .ok fresh h' →
      ∀ p u, w.valueAt p = some u → fresh.same u = false ∧ u.same fresh = false) ∧
    ∀ ws w', w.Event ws w' → w'.Happens (marks.after ws) ∧
      ∀ p v, w'.valueAt p = some v → (ws.origin p).Gives w v := by
  obtain ⟨correct, begun⟩ := happens.correct
  refine ⟨?_, ?_, ?_⟩
  · intro p q a b ha hb
    have hp : marks.mark p = some a := correct.mark p _ ha
    have hq : marks.mark q = some b := correct.mark q _ hb
    have here : a < w.heap.boxes.size := correct.onHeap p _ ha
    have same : marks.mark p = marks.mark q ↔ a = b := by rw [hp, hq, Option.some_inj]
    refine ⟨⟨a, correct.made ▸ here, hp⟩, ?_, ?_⟩
    · refine Table.apply_standard_eq_ok_iff.mpr ⟨.isEqual, rfl, ?_⟩
      have equal : (Value.box a).same (.box b) = decide (marks.mark p = marks.mark q) := by
        rw [Value.same, Bool.eq_iff_iff, decide_eq_true_iff, same, beq_iff_eq]
      exact equal ▸ .isEqual
    · intro v
      refine ⟨_, Table.apply_standard_eq_ok_iff.mpr ⟨.setBox, rfl, .setBox⟩, ?_, rfl, rfl, ?_, ?_⟩
      · rw [Heap.contents_setBox here]
        exact if_congr same.symm rfl rfl
      · rw [Heap.boxes_setBox, Array.size_setIfInBounds]
      · intro ref href
        rw [Heap.boxes_setBox, Array.getElem?_setIfInBounds, if_neg (Ne.symm href)]
  · intro v fresh h' made p u hu
    rw [Table.standard_box] at made
    cases made
    have here := correct.onHeap p u hu
    cases u with
    | box ref =>
        have hne : ref ≠ w.heap.boxes.size := Nat.ne_of_lt here
        exact ⟨beq_false_of_ne (Ne.symm hne), beq_false_of_ne hne⟩
    | _ => exact ⟨rfl, rfl⟩
  · intro ws w' event
    exact ⟨.event happens event, (event.follows begun).values⟩

/-- A program returns a box, and the embedder puts it into another one. -/
theorem boxes_equal_iff_aliases_nested : ∃ w marks, World.Happens w marks ∧
    w.held = [.box 0, .box 1] ∧ w.heap.boxes = #[.integer 5, .box 0] ∧
    marks.mark (.inside 1) = some 0 ∧
    Table.standard.apply "is_equal" [.box 0, .box 1] w.heap = .ok (.boolean false) w.heap := by
  have begun := World.Happens.start.event (.begin (.primApp "box" [.datum (.integer 5)]))
  have visited := (begun.event (.step rfl)).event (.step rfl)
  have halted := (visited.event (.step rfl)).event (.step rfl)
  have finished := halted.event (.finish rfl)
  have nested := finished.event (.apply (Table.standard_box (v := .box 0))
    (.cons (show World.Offers _ (.place (.held 0)) _ from rfl) .nil))
  obtain ⟨boxes, -, -⟩ := boxes_equal_iff_aliases _ _ nested
  have different := (boxes (.held 0) (.held 1) 0 1 rfl rfl).2.1
  exact ⟨_, _, nested, rfl, rfl, rfl, different⟩

end CoreLisp
