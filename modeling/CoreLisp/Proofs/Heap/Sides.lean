import CoreLisp.Proofs.Expr.Matching
import CoreLisp.Proofs.Heap.Scopes
import Mathlib.Data.List.Nodup

/-!
# Two heaps side by side

Two runs of matching programs make their frames and boxes at the same places; only the
numbers of their procedures can differ. Two heaps are kept together here with the
numbers that belong to each other. They agree when what stands at one place on the two
sides matches, and each operation keeps it so: started on both sides with matching
arguments it gives matching results, or it fails on both.
-/
namespace CoreLisp

/-- Two heaps with as many frames and boxes. A procedure has at most one counterpart on
the other side. -/
structure Sides where
  left : Heap
  right : Heap
  numbers : Nat → Nat → Prop
  frames_size : left.frames.size = right.frames.size
  boxes_size : left.boxes.size = right.boxes.size
  numbers_lt : ∀ {i j : Nat}, numbers i j → i < left.procedures ∧ j < right.procedures
  one_one : ∀ {i j i' j' : Nat}, numbers i j → numbers i' j' → (i = i' ↔ j = j')

/-- Both heaps have grown, and no procedure has changed its counterpart. -/
structure Sides.Grows (w w' : Sides) : Prop where
  left : w.left.Grows w'.left
  right : w.right.Grows w'.right
  numbers : ∀ {i j : Nat}, w.numbers i j → w'.numbers i j

/-- New frames stand at the same place inside an environment. -/
def Sides.Enters (w : Sides) (env : Env) (names names' : List Name) (inner : Env) : Prop :=
  w.left.Enters env (some names) inner ∧ w.right.Enters env (some names') inner

/-- The expressions match in an environment of the two sides, with scopes inside it that
have no frames yet. -/
def Expr.MatchesAt (c : Change) (w : Sides) (env : Env) (inner inner' : List (List Name))
    (e e' : Expr) : Prop :=
  env < w.left.frames.size ∧
    e.Matches c (inner ++ w.left.scopes env) (inner' ++ w.right.scopes env) e'

/-- The values are the same, but for procedures: these are counterparts of each other in
one environment, with bodies that match there inside the parameters. -/
inductive Value.Matches (c : Change) (w : Sides) : Value → Value → Prop
  | integer (n : Int) : Matches c w (.integer n) (.integer n)
  | boolean (b : Bool) : Matches c w (.boolean b) (.boolean b)
  | undefined : Matches c w .undefined .undefined
  | unit : Matches c w .unit .unit
  | box (ref : BoxRef) : Matches c w (.box ref) (.box ref)
  | procedure {f f' : Closure} : w.numbers f.id f'.id → f'.env = f.env →
      c.Binders f.params f'.params →
      f.body.MatchesAt c w f.env [f.params] [f'.params] f'.body →
      Matches c w (.procedure f) (.procedure f')

/-- The frames bind matching values, in order, and have the same frame around them. -/
structure Frame.Matches (c : Change) (w : Sides) (f f' : Frame) : Prop where
  parent : f'.parent = f.parent
  names : c.Binders f.names f'.names
  values : List.Forall₂ (fun b b' => b.2.Matches c w b'.2) f.bindings f'.bindings

/-- What stands at one place on the two sides matches. -/
structure Sides.Agree (c : Change) (w : Sides) : Prop where
  frames : ∀ {i : Env} {f f' : Frame}, w.left.frames[i]? = some f →
    w.right.frames[i]? = some f' → f.Matches c w f'
  boxes : ∀ {i : BoxRef} {v v' : Value}, w.left.boxes[i]? = some v →
    w.right.boxes[i]? = some v' → v.Matches c w v'

/-- The causes are of one kind, and if a name is not bound it is the same one. -/
structure EvalError.Alike (e e' : EvalError) : Prop where
  kind : e.kind = e'.kind
  name : ∀ x, e = .unboundName x ↔ e' = .unboundName x

/-- How the causes of failing may differ. The text of a procedure shows its names, and
so does a complaint about it. -/
def Change.Errors : Change → EvalError → EvalError → Prop
  | names => EvalError.Alike
  | lets => Eq

theorem Change.Errors.refl (c : Change) (e : EvalError) : c.Errors e e := by
  cases c with
  | names => exact ⟨rfl, fun _ => Iff.rfl⟩
  | lets => rfl

variable {c : Change} {w w' w₁ : Sides} {env inner : Env} {scopes scopes' : List (List Name)}
variable {names names' : List Name} {e e' : Expr} {v v' u u' : Value} {f f' : Frame} {x y : Name}

namespace Sides.Grows

theorem refl (w : Sides) : w.Grows w := ⟨.refl _, .refl _, id⟩

theorem trans (first : w.Grows w₁) (second : w₁.Grows w') : w.Grows w' :=
  ⟨first.left.trans second.left, first.right.trans second.right,
    fun hn => second.numbers (first.numbers hn)⟩

end Sides.Grows

theorem Sides.Enters.mono (enters : w.Enters env names names' inner) (grows : w.Grows w') :
    w'.Enters env names names' inner :=
  ⟨grows.left.enters enters.1, grows.right.enters enters.2⟩

theorem Expr.MatchesAt.mono (he : e.MatchesAt c w env scopes scopes' e') (grows : w.Grows w') :
    e.MatchesAt c w' env scopes scopes' e' := by
  obtain ⟨henv, he⟩ := he
  refine ⟨Nat.lt_of_lt_of_le henv grows.left.frames_le, ?_⟩
  rwa [grows.left.scopes henv, grows.right.scopes (w.frames_size ▸ henv)]

theorem Value.Matches.mono (hv : v.Matches c w v') (grows : w.Grows w') : v.Matches c w' v' := by
  cases hv with
  | procedure hn henv params body =>
      exact .procedure (grows.numbers hn) henv params (body.mono grows)
  | _ => constructor

theorem Frame.Matches.mono (hf : f.Matches c w f') (grows : w.Grows w') : f.Matches c w' f' :=
  ⟨hf.parent, hf.names, hf.values.imp fun _ _ hv => hv.mono grows⟩

/-- What matches inside the new names matches in the environment of the new frames. -/
theorem Expr.MatchesAt.enter (he : e.MatchesAt c w env [names] [names'] e')
    (enters : w.Enters env names names' inner) : e.MatchesAt c w inner [] [] e' := by
  obtain ⟨-, he⟩ := he
  obtain ⟨-, f, hf, -⟩ := enters.1
  refine ⟨(Array.getElem?_eq_some_iff.mp hf).1, ?_⟩
  rwa [List.nil_append, List.nil_append, enters.1.scopes, enters.2.scopes]

namespace Value.Matches

theorem isTruthy (hv : v.Matches c w v') : v.isTruthy = v'.isTruthy := by
  cases hv <;> rfl

/-- A value is the same as another one when its counterpart is. -/
theorem same (hv : v.Matches c w v') (hu : u.Matches c w u') : v.same u = v'.same u' := by
  cases hv with
  | @procedure f f' hn =>
      cases hu with
      | @procedure g g' hm => simpa [Value.same, Bool.beq_eq_decide_eq] using w.one_one hn hm
      | _ => rfl
  | _ => cases hu <;> rfl

/-- Without new names nothing in the text of a value changes. -/
theorem text (hv : v.Matches .lets w v') : v.text = v'.text := by
  cases hv with
  | procedure _ _ params => rw [Value.text, Value.text, params.1]
  | _ => rfl

theorem description (hv : v.Matches .lets w v') : v.description = v'.description := by
  have types : v.typeName = v'.typeName := by cases hv <;> rfl
  rw [Value.description, Value.description, hv.text, types]

/-- A primitive refuses an argument on both sides for one reason. -/
theorem errors (hv : v.Matches c w v') (name : Name) (reason : String) :
    c.Errors (.primitive name (reason ++ v.description))
      (.primitive name (reason ++ v'.description)) := by
  cases c with
  | names => exact ⟨rfl, fun _ => ⟨nofun, nofun⟩⟩
  | lets => rw [hv.description]; rfl

end Value.Matches

theorem Datum.matches_value (d : Datum) : d.value.Matches c w d.value := by
  cases d <;> constructor

/-- Names of one place with values of one place. -/
theorem forall₂_zip {R : Value → Value → Prop} {values values' : List Value}
    (lengths : names.length = names'.length) (hvalues : List.Forall₂ R values values') :
    List.Forall₂ (fun b b' => (b.1, b'.1) ∈ names.zip names' ∧ R b.2 b'.2)
      (names.zip values) (names'.zip values') := by
  induction hvalues generalizing names names' with
  | nil => simp
  | @cons v v' values values' here rest ih =>
      cases names with
      | nil =>
          obtain rfl := List.length_eq_zero_iff.mp lengths.symm
          exact .nil
      | cons x names =>
          cases names' with
          | nil => cases lengths
          | cons y names' =>
              refine .cons ⟨List.mem_cons_self, here⟩ ?_
              exact (ih (Nat.succ_inj.mp lengths)).imp fun _ _ hb =>
                ⟨List.mem_cons_of_mem _ hb.1, hb.2⟩

/-- A name that differs from the others stands at one place. -/
theorem eq_iff_eq_of_mem_zip {xs ys : List Name} {x y x' y' : Name} (hx : xs.Nodup)
    (hy : ys.Nodup) (here : (x, y) ∈ xs.zip ys) (there : (x', y') ∈ xs.zip ys) :
    x = x' ↔ y = y' := by
  obtain ⟨i, hi, hxy⟩ := List.mem_iff_getElem.mp here
  obtain ⟨j, hj, hxy'⟩ := List.mem_iff_getElem.mp there
  rw [List.getElem_zip] at hxy hxy'
  cases hxy
  cases hxy'
  exact (List.Nodup.getElem_inj_iff hx).trans (List.Nodup.getElem_inj_iff hy).symm

/-- Names at one place are bound to values at one place. -/
theorem lookup_matches {bindings bindings' : List (Name × Value)}
    (values : List.Forall₂ (fun b b' => b.2.Matches c w b'.2) bindings bindings')
    (hx : (bindings.map (·.1)).Nodup) (hy : (bindings'.map (·.1)).Nodup)
    (hxy : (x, y) ∈ (bindings.map (·.1)).zip (bindings'.map (·.1))) :
    ∃ v v', bindings.lookup x = some v ∧ bindings'.lookup y = some v' ∧ v.Matches c w v' := by
  induction values with
  | nil => cases hxy
  | @cons b b' bindings bindings' here rest ih =>
      obtain ⟨x₁, v⟩ := b
      obtain ⟨y₁, v'⟩ := b'
      rw [List.map_cons, List.nodup_cons] at hx hy
      rcases List.mem_cons.mp hxy with hxy | hxy
      · cases hxy
        exact ⟨v, v', List.lookup_cons_self, List.lookup_cons_self, here⟩
      · have hmem := List.of_mem_zip hxy
        have hne : x ≠ x₁ := fun same => hx.1 (same ▸ hmem.1)
        have hne' : y ≠ y₁ := fun same => hy.1 (same ▸ hmem.2)
        obtain ⟨u, u', hu, hu', matching⟩ := ih hx.2 hy.2 hxy
        refine ⟨u, u', ?_, ?_, matching⟩
        · rwa [List.lookup_cons, beq_false_of_ne hne]
        · rwa [List.lookup_cons, beq_false_of_ne hne']

namespace Frame.Matches

theorem get? (hf : f.Matches c w f') (hxy : (x, y) ∈ f.names.zip f'.names) :
    ∃ v v', f.get? x = some v ∧ f'.get? y = some v' ∧ v.Matches c w v' :=
  lookup_matches hf.values hf.names.left hf.names.right hxy

theorem set (hf : f.Matches c w f') (hxy : (x, y) ∈ f.names.zip f'.names)
    (hv : v.Matches c w v') : (f.set x v).Matches c w (f'.set y v') := by
  refine ⟨hf.parent, by simpa using hf.names, ?_⟩
  refine List.forall₂_map_left_iff.mpr (List.forall₂_map_right_iff.mpr ?_)
  refine List.forall₂_iff_zip.mpr ⟨hf.values.length_eq, ?_⟩
  intro b b' hb
  have old := (List.forall₂_iff_zip.mp hf.values).2 hb
  have place : (b.1, b'.1) ∈ f.names.zip f'.names := by
    rw [Frame.names, Frame.names, List.zip_map]
    exact List.mem_map.mpr ⟨(b, b'), hb, rfl⟩
  have chosen := eq_iff_eq_of_mem_zip hf.names.left hf.names.right place hxy
  by_cases hx : b.1 = x
  · simpa only [if_pos hx, if_pos (chosen.mp hx)] using hv
  · simpa only [if_neg hx, if_neg (mt chosen.mpr hx)] using old

end Frame.Matches

theorem SameVariable.outward (same : SameVariable (names :: scopes) (names' :: scopes') x y)
    (missing : (x, y) ∉ names.zip names') :
    x ∉ names ∧ y ∉ names' ∧ SameVariable scopes scopes' x y := by
  cases same with
  | here found => exact absurd found missing
  | outer hx hy same => exact ⟨hx, hy, same⟩

theorem getElem?_cases {α : Type} {xs ys : Array α} (sizes : xs.size = ys.size) (i : Nat) :
    (xs[i]? = none ∧ ys[i]? = none) ∨ ∃ x y, xs[i]? = some x ∧ ys[i]? = some y := by
  by_cases hi : i < xs.size
  · exact .inr ⟨_, _, Array.getElem?_eq_getElem hi, Array.getElem?_eq_getElem (sizes ▸ hi)⟩
  · have hi := Nat.le_of_not_lt hi
    exact .inl ⟨Array.getElem?_eq_none hi, Array.getElem?_eq_none (sizes ▸ hi)⟩

namespace Sides.Agree

theorem contents (agree : w.Agree c) (ref : BoxRef) :
    (w.left.contents ref).Matches c w (w.right.contents ref) := by
  rw [Heap.contents, Heap.contents, Array.getD_eq_getD_getElem?, Array.getD_eq_getD_getElem?]
  rcases getElem?_cases w.boxes_size ref with ⟨hl, hr⟩ | ⟨v, v', hl, hr⟩
  · rw [hl, hr]
    exact .undefined
  · rw [hl, hr]
    exact agree.boxes hl hr

/-- A variable is bound in frames of one place and at one place of them, or it is bound on
neither side. Induction outward along the frames, which have the same parents. -/
theorem find? (agree : w.Agree c)
    (same : SameVariable (w.left.scopes env) (w.right.scopes env) x y) :
    (w.left.find? x env = none ∧ w.right.find? y env = none ∧ x = y) ∨
      ∃ owner v v' f f', w.left.find? x env = some (owner, v) ∧
        w.right.find? y env = some (owner, v') ∧ w.left.frames[owner]? = some f ∧
        w.right.frames[owner]? = some f' ∧ (x, y) ∈ f.names.zip f'.names ∧
        v.Matches c w v' := by
  induction env using Nat.strongRecOn with
  | ind env ih =>
      rw [Heap.find?, Heap.find?]
      rcases getElem?_cases w.frames_size env with ⟨hl, hr⟩ | ⟨f, f', hl, hr⟩
      · rw [Heap.scopes, Heap.scopes, hl, hr] at same
        rw [hl, hr]
        cases same
        exact .inl ⟨rfl, rfl, rfl⟩
      · have hf := agree.frames hl hr
        rw [Heap.scopes, Heap.scopes, hl, hr] at same
        simp only [hl, hr, hf.parent] at same ⊢
        by_cases hxy : (x, y) ∈ f.names.zip f'.names
        · obtain ⟨v, v', hv, hv', matching⟩ := hf.get? hxy
          refine .inr ⟨env, v, v', f, f', ?_, ?_, hl, hr, hxy, matching⟩
          · simp only [hv]
          · simp only [hv']
        · cases hparent : f.parent with
          | none =>
              rw [hparent] at same
              obtain ⟨hx, hy, same⟩ := same.outward hxy
              cases same
              rw [Frame.get?_eq_none_iff.mpr hx, Frame.get?_eq_none_iff.mpr hy]
              exact .inl ⟨rfl, rfl, rfl⟩
          | some outer =>
              rw [hparent] at same
              by_cases hlt : outer < env
              · simp only [if_pos hlt] at same
                obtain ⟨hx, hy, same⟩ := same.outward hxy
                simp only [Frame.get?_eq_none_iff.mpr hx, Frame.get?_eq_none_iff.mpr hy, if_pos hlt]
                exact ih outer hlt same
              · simp only [if_neg hlt] at same
                obtain ⟨hx, hy, same⟩ := same.outward hxy
                cases same
                rw [Frame.get?_eq_none_iff.mpr hx, Frame.get?_eq_none_iff.mpr hy]
                exact .inl ⟨if_neg hlt, if_neg hlt, rfl⟩

end Sides.Agree

namespace Sides

def addFrame (w : Sides) (f f' : Frame) : Sides :=
  { w with
    left := w.left.addFrame f
    right := w.right.addFrame f'
    frames_size := by simp [w.frames_size] }

def rebind (w : Sides) (owner : Env) (x y : Name) (v v' : Value) : Sides :=
  { w with
    left := w.left.rebind owner x v
    right := w.right.rebind owner y v'
    frames_size := by simp [w.frames_size] }

def addBox (w : Sides) (v v' : Value) : Sides :=
  { w with
    left := w.left.addBox v
    right := w.right.addBox v'
    boxes_size := by simp [w.boxes_size] }

def setBox (w : Sides) (ref : BoxRef) (v v' : Value) : Sides :=
  { w with
    left := w.left.setBox ref v
    right := w.right.setBox ref v'
    boxes_size := by simp [w.boxes_size] }

/-- A procedure on the right that has no counterpart. -/
def skipProcedure (w : Sides) : Sides :=
  { w with
    right := { w.right with procedures := w.right.procedures + 1 }
    numbers_lt := fun hn => ⟨(w.numbers_lt hn).1, Nat.lt_succ_of_lt (w.numbers_lt hn).2⟩ }

/-- A procedure on both sides, each the counterpart of the other. -/
def addProcedure (w : Sides) : Sides :=
  { w with
    left := { w.left with procedures := w.left.procedures + 1 }
    right := { w.right with procedures := w.right.procedures + 1 }
    numbers := fun i j => w.numbers i j ∨ i = w.left.procedures ∧ j = w.right.procedures
    numbers_lt := by
      rintro i j (hn | ⟨rfl, rfl⟩)
      · exact ⟨Nat.lt_succ_of_lt (w.numbers_lt hn).1, Nat.lt_succ_of_lt (w.numbers_lt hn).2⟩
      · exact ⟨Nat.lt_succ_self _, Nat.lt_succ_self _⟩
    one_one := by
      rintro i j i' j' (hn | ⟨rfl, rfl⟩) (hm | ⟨rfl, rfl⟩)
      · exact w.one_one hn hm
      · have := w.numbers_lt hn
        omega
      · have := w.numbers_lt hm
        omega
      · exact ⟨fun _ => rfl, fun _ => rfl⟩ }

end Sides

namespace Sides.Grows

theorem addFrame : w.Grows (w.addFrame f f') := ⟨.addFrame _ _, .addFrame _ _, id⟩

theorem rebind {owner : Env} : w.Grows (w.rebind owner x y v v') :=
  ⟨.rebind _ _ _ _, .rebind _ _ _ _, id⟩

theorem addBox : w.Grows (w.addBox v v') := ⟨.addBox _ _, .addBox _ _, id⟩

theorem setBox {ref : BoxRef} : w.Grows (w.setBox ref v v') := ⟨.setBox _ _ _, .setBox _ _ _, id⟩

theorem skipProcedure : w.Grows w.skipProcedure :=
  ⟨.refl _, ⟨fun hf => ⟨_, hf, rfl, rfl⟩, Nat.le_refl _⟩, id⟩

theorem addProcedure : w.Grows w.addProcedure :=
  ⟨⟨fun hf => ⟨_, hf, rfl, rfl⟩, Nat.le_refl _⟩, ⟨fun hf => ⟨_, hf, rfl, rfl⟩, Nat.le_refl _⟩,
    .inl⟩

end Sides.Grows

namespace Sides.Agree

theorem addFrame (agree : w.Agree c) (hf : f.Matches c w f') : (w.addFrame f f').Agree c := by
  refine ⟨?_, fun hv hv' => (agree.boxes hv hv').mono .addFrame⟩
  intro i g g' hg hg'
  rw [Sides.addFrame, Heap.frames_addFrame, Array.getElem?_push] at hg hg'
  rw [← w.frames_size] at hg'
  by_cases hi : i = w.left.frames.size
  · rw [if_pos hi] at hg hg'
    cases hg
    cases hg'
    exact hf.mono .addFrame
  · rw [if_neg hi] at hg hg'
    exact (agree.frames hg hg').mono .addFrame

theorem rebind {owner : Env} (agree : w.Agree c) (hl : w.left.frames[owner]? = some f)
    (hr : w.right.frames[owner]? = some f') (hxy : (x, y) ∈ f.names.zip f'.names)
    (hv : v.Matches c w v') : (w.rebind owner x y v v').Agree c := by
  refine ⟨?_, fun hv hv' => (agree.boxes hv hv').mono .rebind⟩
  intro i g g' hg hg'
  rw [Sides.rebind, Heap.frames_rebind, Array.getElem?_modify] at hg hg'
  by_cases hi : owner = i
  · rw [if_pos hi, ← hi] at hg hg'
    rw [hl] at hg
    rw [hr] at hg'
    cases hg
    cases hg'
    exact ((agree.frames hl hr).set hxy hv).mono .rebind
  · rw [if_neg hi] at hg hg'
    exact (agree.frames hg hg').mono .rebind

theorem addBox (agree : w.Agree c) (hv : v.Matches c w v') : (w.addBox v v').Agree c := by
  refine ⟨fun hf hf' => (agree.frames hf hf').mono .addBox, ?_⟩
  intro i u u' hu hu'
  rw [Sides.addBox, Heap.boxes_addBox, Array.getElem?_push] at hu hu'
  rw [← w.boxes_size] at hu'
  by_cases hi : i = w.left.boxes.size
  · rw [if_pos hi] at hu hu'
    cases hu
    cases hu'
    exact hv.mono .addBox
  · rw [if_neg hi] at hu hu'
    exact (agree.boxes hu hu').mono .addBox

theorem setBox {ref : BoxRef} (agree : w.Agree c) (hv : v.Matches c w v') :
    (w.setBox ref v v').Agree c := by
  refine ⟨fun hf hf' => (agree.frames hf hf').mono .setBox, ?_⟩
  intro i u u' hu hu'
  rw [Sides.setBox, Heap.boxes_setBox, Array.getElem?_setIfInBounds] at hu hu'
  rw [← w.boxes_size] at hu'
  by_cases hi : ref = i
  · by_cases hlt : ref < w.left.boxes.size
    · rw [if_pos hi, if_pos hlt] at hu hu'
      cases hu
      cases hu'
      exact hv.mono .setBox
    · rw [if_pos hi, if_neg hlt] at hu
      cases hu
  · rw [if_neg hi] at hu hu'
    exact (agree.boxes hu hu').mono .setBox

theorem skipProcedure (agree : w.Agree c) : w.skipProcedure.Agree c :=
  ⟨fun hf hf' => (agree.frames hf hf').mono .skipProcedure,
    fun hv hv' => (agree.boxes hv hv').mono .skipProcedure⟩

theorem addProcedure (agree : w.Agree c) : w.addProcedure.Agree c :=
  ⟨fun hf hf' => (agree.frames hf hf').mono .addProcedure,
    fun hv hv' => (agree.boxes hv hv').mono .addProcedure⟩

end Sides.Agree

/-- Nothing but the roots. -/
def Sides.start : Sides where
  left := ({} : Heap).newRoot.2
  right := ({} : Heap).newRoot.2
  numbers := fun _ _ => False
  frames_size := rfl
  boxes_size := rfl
  numbers_lt := False.elim
  one_one := False.elim

theorem Sides.start_agree (c : Change) : Sides.start.Agree c := by
  refine ⟨?_, fun hv => by cases hv⟩
  intro i f f' hf hf'
  have root : Sides.start.left.frames = #[⟨[], none⟩] := rfl
  have same : some f = some f' := hf.symm.trans hf'
  cases same
  rw [root] at hf
  cases i with
  | zero =>
      cases hf
      refine ⟨rfl, ?_, .nil⟩
      cases c with
      | names => exact ⟨rfl, .nil, .nil⟩
      | lets => exact ⟨rfl, .nil⟩
  | succ i => cases hf

/-- Around a program is the root. -/
theorem Expr.Matches.start (he : e.Matches c [[]] [[]] e') :
    e.MatchesAt c Sides.start ({} : Heap).newRoot.1 [] [] e' := by
  have left : Sides.start.left.scopes ({} : Heap).newRoot.1 = [[]] := by
    rw [Heap.scopes]
    rfl
  have right : Sides.start.right.scopes ({} : Heap).newRoot.1 = [[]] := left
  refine ⟨Nat.one_pos, ?_⟩
  rwa [List.nil_append, List.nil_append, left, right]

end CoreLisp
