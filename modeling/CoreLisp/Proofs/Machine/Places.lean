import Mathlib.Data.List.Forall2
import CoreLisp.Proofs.Machine.Values

/-!
# Where values come from

A value is at a place: at hand, among the values that a frame on the stack has gathered,
in a cell of an environment, in a box, or with the embedder. A step copies values from
place to place and makes a few new ones. `State.flow` says for each place that a step
writes to where the value comes from. It looks at the values only to find out which box
a primitive opens, which procedure is called and which frame binds a name; all other
places keep what they have.
-/
namespace CoreLisp

inductive Place where
  /-- The value that is returned, or that the machine has halted with. -/
  | control
  /-- A value gathered by the frame at this depth, counted from the bottom of the stack. -/
  | waiting (depth index : Nat)
  | cell (frame : Env) (x : Name)
  | inside (ref : BoxRef)
  /-- What the embedder got from earlier programs and calls of primitives. -/
  | held (index : Nat)
deriving DecidableEq

/-- Where a value comes from: a place, a new box, or nowhere if it is no box. -/
inductive Source where
  | place (p : Place)
  | box
  | plain
deriving DecidableEq

/-- The places that are written to, with the source of the new value. -/
abbrev Flow := List (Place × Source)

/-- The heap, the program that is running, and the values that the embedder holds. -/
structure World where
  heap : Heap
  running : Option State
  held : List Value

/-- What the frame at this depth has gathered, counted from the bottom. -/
def Stack.valueAt (s : Stack) (depth index : Nat) : Option Value :=
  s.frames.reverse[depth]?.bind (·.values[index]?)

/-- What is in the cell of a name. -/
def Heap.cell? (h : Heap) (place : Env) (x : Name) : Option Value :=
  h.frames[place]?.bind (·.get? x)

def World.valueAt (w : World) : Place → Option Value
  | .control => w.running.bind fun s => s.control.values.head?
  | .waiting depth index => w.running.bind fun s => s.stack.valueAt depth index
  | .cell frame x => w.heap.cell? frame x
  | .inside ref => w.heap.boxes[ref]?
  | .held index => w.held[index]?

/-- The source gives the value. -/
def Source.Gives (w : World) (v : Value) : Source → Prop
  | .place p => w.valueAt p = some v
  | .box => v = .box w.heap.boxes.size
  | .plain => ∀ ref, v ≠ .box ref

/-- The frame that the nearest binding of `x` is in. -/
def Heap.owner? (h : Heap) (x : Name) (env : Env) : Option Env := (h.find? x env).map (·.1)

namespace Flow

/-- Where the value at a place is from. A place that is not written to keeps its value. -/
def origin (ws : Flow) (p : Place) : Source := (ws.lookup p).getD (.place p)

/-- The number of boxes that are made. -/
def boxes (ws : Flow) : Nat := ws.countP (·.2 = .box)

/-- The values for the names of a new frame. -/
def bind (frame : Env) (names : List Name) (sources : List Source) : Flow :=
  (names.zip sources).map fun b => (.cell frame b.1, b.2)

/-- Assignments from the environment, one after the other. The last one to a cell
counts. -/
def fill (h : Heap) (env : Env) (names : List Name) (sources : List Source) : Flow :=
  ((names.zip sources).filterMap fun b =>
    (h.owner? b.1 env).map fun owner => (.cell owner b.1, b.2)).reverse

end Flow

/-- What the call of a primitive gives to the place for its result, and to a box. -/
def Builtin.flow (b : Builtin) (args : List Value) (sources : List Source) (result : Place)
    (h : Heap) : Flow :=
  match b, args, sources with
  | .box, _, [source] => [(.inside h.boxes.size, source), (result, .box)]
  | .setBox, [.box ref, _], [_, source] => [(.inside ref, source), (result, .plain)]
  | .unbox, [.box ref], _ => [(result, .place (.inside ref))]
  | _, _, _ => [(result, .plain)]

def Flow.primitive (name : Name) (args : List Value) (sources : List Source) (result : Place)
    (h : Heap) : Flow :=
  match Builtin.all.find? (·.name = name) with
  | some b => b.flow args sources result h
  | none => []

/-- The values that a frame has gathered, and the one that it is given. -/
def Kont.gathered (k : Kont) (depth : Nat) : List Source :=
  (List.range k.values.length).map (fun i => .place (.waiting depth i)) ++ [.place .control]

/-- What the visit of an expression writes. -/
def Expr.flow (h : Heap) (env : Env) : Expr → Flow
  | .datum _ | .lambda .. => [(.control, .plain)]
  | .ref x =>
      match h.owner? x env with
      | some owner => [(.control, .place (.cell owner x))]
      | none => []
  | .letRec names _ _ => .bind h.frames.size names (names.map fun _ => .plain)
  | .primApp name [] => .primitive name [] [] .control h
  | _ => []

/-- What a frame writes that is resumed with the value. -/
def Kont.flow (h : Heap) (v : Value) (depth : Nat) (k : Kont) : Flow :=
  let hold : Flow := [(.waiting depth k.values.length, .place .control)]
  let gathered := k.gathered depth
  match k with
  | .halt _ | .cond .. | .seq .. => []
  | .assign env x =>
      match h.owner? x env with
      | some owner => [(.cell owner x, .place .control), (.control, .plain)]
      | none => []
  | .letIn _ names inits _ values =>
      match inits[values.length + 1]? with
      | some _ => hold
      | none => .bind h.frames.size names gathered
  | .letRec env names inits _ values =>
      match inits[values.length + 1]? with
      | some _ => hold
      | none => .fill h env names gathered
  | .primApp _ name rands values =>
      match rands[values.length + 1]? with
      | some _ => hold
      | none => .primitive name (values ++ [v]) gathered .control h
  | .operator _ rands =>
      match rands, v with
      | _ :: _, _ => hold
      | [], .procedure f => .bind h.frames.size f.params []
      | [], _ => []
  | .operand _ rands rator values =>
      match rands[values.length + 1]?, rator with
      | some _, _ => hold
      -- the operator is the first value that was gathered
      | none, .procedure f => .bind h.frames.size f.params gathered.tail
      | none, _ => []

/-- What a step from the state writes. -/
def State.flow (s : State) (h : Heap) : Flow :=
  match s.control, s.stack.frames with
  | .evaluating e, _ => e.flow h s.env
  | .returning v, k :: below => k.flow h v below.length
  | _, _ => []

/-- The second world has come from the first one in this way. -/
structure World.Follows (w : World) (ws : Flow) (w' : World) : Prop where
  values : ∀ p v, w'.valueAt p = some v → (ws.origin p).Gives w v
  boxes : w'.heap.boxes.size = w.heap.boxes.size + ws.boxes

namespace Flow

variable {ws : Flow} {p q : Place} {source : Source} {names : List Name} {sources : List Source}
variable {values : List Value} {R : Source → Value → Prop} {x : Name} {v : Value}

@[simp] theorem origin_nil : origin [] p = .place p := rfl

@[simp] theorem origin_cons :
    origin ((q, source) :: ws) p = if p = q then source else ws.origin p := by
  by_cases h : p = q
  · simp [origin, h]
  · simp [origin, List.lookup_cons, beq_false_of_ne h, h]

theorem origin_of_forall_ne (h : ∀ b ∈ ws, b.1 ≠ p) : ws.origin p = .place p := by
  have missing : ws.lookup p = none := by
    rw [List.lookup_eq_none_iff]
    intro b hb
    simpa using Ne.symm (h b hb)
  rw [origin, missing, Option.getD_none]

theorem boxes_eq_zero (h : ∀ b ∈ ws, b.2 ≠ .box) : ws.boxes = 0 := by
  rw [boxes, List.countP_eq_zero]
  intro b hb
  simpa using h b hb

/-- If the value at a place is a new box then a box has been made. -/
theorem boxes_pos (h : ws.origin p = .box) : 0 < ws.boxes := by
  rw [origin] at h
  cases found : ws.lookup p with
  | none =>
      rw [found] at h
      cases h
  | some source =>
      rw [found] at h
      obtain ⟨before, after, rfl, -⟩ := List.lookup_eq_some_iff.mp found
      rw [boxes, List.countP_pos_iff]
      exact ⟨(p, source), List.mem_append_right _ List.mem_cons_self, by simpa using h⟩

/-- What a name is bound to comes from where the flow says. -/
theorem lookup_zip (gives : List.Forall₂ R sources values)
    (hx : (names.zip values).lookup x = some v) :
    ∃ source, (names.zip sources).lookup x = some source ∧ R source v := by
  induction names generalizing sources values with
  | nil => cases hx
  | cons y names ih =>
      cases gives with
      | nil => cases hx
      | @cons source w sources values first rest =>
          rw [List.zip_cons_cons, List.lookup_cons] at hx ⊢
          cases hname : x == y with
          | true =>
              rw [hname] at hx
              cases hx
              exact ⟨source, rfl, first⟩
          | false =>
              rw [hname] at hx
              exact ih rest hx

theorem origin_bind (frame : Env) (gives : List.Forall₂ R sources values)
    (hx : (names.zip values).lookup x = some v) :
    R ((bind frame names sources).origin (.cell frame x)) v := by
  obtain ⟨source, hsource, hv⟩ := lookup_zip gives hx
  have found : (bind frame names sources).lookup (.cell frame x) = some source := by
    rw [← hsource, bind]
    generalize names.zip sources = bindings
    induction bindings with
    | nil => rfl
    | cons b rest ih =>
        rw [List.map_cons, List.lookup_cons, List.lookup_cons, ih]
        have same : (Place.cell frame x == Place.cell frame b.1) = (x == b.1) := by
          rw [Bool.eq_iff_iff]
          simp
        rw [same]
  rw [origin, found, Option.getD_some]
  exact hv

theorem origin_bind_of_ne {frame : Env} (h : ∀ x, p ≠ .cell frame x) :
    (bind frame names sources).origin p = .place p := by
  refine origin_of_forall_ne ?_
  intro b hb
  obtain ⟨c, -, rfl⟩ := List.mem_map.mp hb
  exact Ne.symm (h c.1)

theorem boxes_bind {frame : Env} (h : ∀ source ∈ sources, source ≠ .box) :
    (bind frame names sources).boxes = 0 := by
  refine boxes_eq_zero ?_
  intro b hb
  obtain ⟨c, hc, rfl⟩ := List.mem_map.mp hb
  exact h c.2 (List.of_mem_zip hc).2

end Flow

namespace Stack

variable {s below : Stack} {k k' : Kont} {depth index : Nat} {v : Value}

theorem valueAt_push : (s.push k).valueAt depth index =
    if depth = s.frames.length then k.values[index]? else s.valueAt depth index := by
  rw [valueAt, frames_push, List.reverse_cons, getElem?_snoc, List.length_reverse]
  split <;> rfl

/-- The values on the first stack are on the second one at the same places. -/
def Within (s t : Stack) : Prop :=
  ∀ depth index v, s.valueAt depth index = some v → t.valueAt depth index = some v

theorem Within.refl (s : Stack) : s.Within s := fun _ _ _ hv => hv

theorem Within.push_empty (hk : k.values = []) : (s.push k).Within s := by
  intro depth index v hv
  rw [valueAt_push, hk] at hv
  split at hv
  · cases hv
  · exact hv

theorem Within.push (s : Stack) (k : Kont) : s.Within (s.push k) := by
  intro depth index v hv
  rw [valueAt_push, if_neg]
  · exact hv
  · intro hdepth
    rw [valueAt, hdepth, List.getElem?_eq_none (by simp)] at hv
    cases hv

theorem Within.push_of_empty (hk : k'.values = []) : (s.push k').Within (s.push k) := by
  intro depth index v hv
  exact Within.push s k depth index v (Within.push_empty hk depth index v hv)

end Stack

theorem tail_of_forall₂ {α β : Type} {R : α → β → Prop} {sources : List α} {v : β}
    {values : List β} (all : List.Forall₂ R sources (v :: values)) :
    List.Forall₂ R sources.tail values := by
  cases all with
  | cons _ rest => exact rest

theorem forall₂_range_map {α β : Type} {R : α → β → Prop} {f : Nat → α} {values : List β}
    (related : ∀ i v, values[i]? = some v → R (f i) v) :
    List.Forall₂ R ((List.range values.length).map f) values := by
  induction values generalizing f with
  | nil => exact .nil
  | cons v values ih =>
      rw [List.length_cons, List.range_succ_eq_map, List.map_cons, List.map_map]
      refine .cons (related 0 v rfl) (ih ?_)
      intro i w hw
      exact related (i + 1) w hw

namespace Heap

variable {h h' : Heap} {env owner place : Env} {x y : Name} {v w : Value} {u : Unit}

/-- Only the names and the parents of the frames matter. -/
theorem owner?_eq : h.owner? x env =
    (h.frames[env]?.map fun f => (f.names, f.parent)).bind fun shape =>
      if x ∈ shape.1 then some env
      else shape.2.bind fun outer => if outer < env then h.owner? x outer else none := by
  rw [owner?, find?]
  cases h.frames[env]? with
  | none => rfl
  | some f =>
      have bound := Frame.isSome_get?_iff (f := f) (x := x)
      cases hx : f.get? x with
      | some v =>
          have mem : x ∈ f.names := bound.mp (by rw [hx]; rfl)
          simp [hx, mem]
      | none =>
          have missing : x ∉ f.names := by simpa [hx] using bound
          cases hp : f.parent with
          | none => simp [hx, hp, missing]
          | some outer => by_cases hlt : outer < env <;> simp [hx, hp, missing, hlt, owner?]

/-- An assignment leaves a name bound in the frame in which it was bound. -/
theorem owner?_rebind : (h.rebind owner y w).owner? x env = h.owner? x env := by
  induction env using Nat.strongRecOn with
  | ind env ih =>
      have shape : ((h.rebind owner y w).frames[env]?.map fun f => (f.names, f.parent)) =
          h.frames[env]?.map fun f => (f.names, f.parent) := by
        rw [frames_rebind, Array.getElem?_modify]
        split
        · rw [Option.map_map]
          congr 1
          funext f
          simp
        · rfl
      rw [owner?_eq, owner?_eq, shape]
      congr 1
      funext shape
      split
      · rfl
      · congr 1
        funext outer
        split
        · rename_i hlt
          exact ih outer hlt
        · rfl

theorem cell?_of_find? (found : h.find? x env = some (owner, v)) : h.cell? owner x = some v := by
  obtain ⟨f, hf, hx⟩ := get?_of_find? found
  rw [cell?, hf]
  exact hx

/-- After an assignment, a cell holds the new value, or it is another cell. -/
theorem cell?_rebind (hv : (h.rebind owner y w).cell? place x = some v) :
    (place = owner ∧ x = y ∧ v = w) ∨
      (¬ (place = owner ∧ x = y) ∧ h.cell? place x = some v) := by
  unfold cell? at hv ⊢
  rw [frames_rebind, Array.getElem?_modify] at hv
  obtain ⟨g, hg, hx⟩ := Option.bind_eq_some_iff.mp hv
  split at hg
  · rename_i howner
    subst howner
    obtain ⟨f, hf, rfl⟩ := Option.map_eq_some_iff.mp hg
    by_cases hname : x = y
    · subst hname
      have mem : x ∈ f.names := by
        rw [← Frame.names_set f x w, ← Frame.isSome_get?_iff, hx]
        rfl
      rw [Frame.get?_set_self mem] at hx
      cases hx
      exact .inl ⟨rfl, rfl, rfl⟩
    · rw [Frame.get?_set_of_ne f hname] at hx
      exact .inr ⟨fun both => hname both.2, by rw [hf]; exact hx⟩
  · rename_i howner
    exact .inr ⟨fun both => howner both.1.symm, by rw [hg]; exact hx⟩

end Heap

namespace Flow

variable {h h' : Heap} {env place : Env} {names : List Name} {sources : List Source}
variable {values : List Value} {R : Source → Value → Prop} {x y : Name} {v : Value} {u : Unit}

theorem fill_cons {source : Source} {owner : Env} (howner : h.owner? y env = some owner) :
    fill h env (y :: names) (source :: sources) =
      fill h env names sources ++ [(.cell owner y, source)] := by
  simp [fill, howner]

theorem fill_rebind {owner : Env} {w : Value} :
    fill (h.rebind owner y w) env names sources = fill h env names sources := by
  simp only [fill, Heap.owner?_rebind]

/-- Assignments one after the other fill cells as the flow says. Induction on the
assignments, which find the names in the same frames from first to last. -/
theorem fill_follows (gives : List.Forall₂ R sources values)
    (ok : env.assignAll (names.zip values) h = .ok u h') (hv : h'.cell? place x = some v) :
    (∃ source, (fill h env names sources).lookup (.cell place x) = some source ∧ R source v) ∨
      ((fill h env names sources).lookup (.cell place x) = none ∧ h.cell? place x = some v) := by
  induction names generalizing h sources values with
  | nil =>
      cases ok
      exact .inr ⟨rfl, hv⟩
  | cons y names ih =>
      cases gives with
      | nil =>
          cases ok
          exact .inr ⟨rfl, hv⟩
      | @cons source w sources values first rest =>
          obtain ⟨_, h₁, hfirst, hrest⟩ := Action.bind_eq_ok_iff.mp ok
          obtain ⟨owner, old, found, rfl⟩ := Env.assign_eq_ok_iff.mp hfirst
          have howner : h.owner? y env = some owner := by rw [Heap.owner?, found]; rfl
          rw [fill_cons howner, List.lookup_append]
          rcases ih rest hrest with ⟨source', later, hR⟩ | ⟨untouched, here⟩
          · rw [fill_rebind] at later
            exact .inl ⟨source', by rw [later]; rfl, hR⟩
          · rw [fill_rebind] at untouched
            rw [untouched, Option.none_or]
            rcases Heap.cell?_rebind here with ⟨rfl, rfl, rfl⟩ | ⟨other, here⟩
            · exact .inl ⟨source, by simp, first⟩
            · refine .inr ⟨?_, here⟩
              rw [List.lookup_cons]
              have ne : (Place.cell place x == Place.cell owner y) = false := by simpa using other
              rw [ne]
              rfl

theorem origin_fill_of_ne {p : Place} (h' : ∀ place x, p ≠ .cell place x) :
    (fill h env names sources).origin p = .place p := by
  refine origin_of_forall_ne ?_
  intro b hb
  obtain ⟨c, -, hc⟩ := List.mem_filterMap.mp (List.mem_reverse.mp hb)
  obtain ⟨owner, -, rfl⟩ := Option.map_eq_some_iff.mp hc
  exact Ne.symm (h' owner c.1)

theorem boxes_fill (hsources : ∀ source ∈ sources, source ≠ .box) :
    (fill h env names sources).boxes = 0 := by
  refine boxes_eq_zero ?_
  intro b hb
  obtain ⟨c, hc, hb⟩ := List.mem_filterMap.mp (List.mem_reverse.mp hb)
  obtain ⟨owner, -, rfl⟩ := Option.map_eq_some_iff.mp hb
  exact hsources c.2 (List.of_mem_zip hc).2

end Flow

/-- What the call of a primitive gives comes from where its flow says. -/
theorem Builtin.Applied.follows {b : Builtin} {args : List Value} {sources : List Source}
    {result : Place} {w : World} {v : Value} {h' : Heap} (applied : b.Applied args w.heap v h')
    (gives : List.Forall₂ (fun source v => source.Gives w v) sources args)
    (old : ∀ source ∈ sources, source ≠ .box) (hresult : ∀ ref, result ≠ .inside ref) :
    ((b.flow args sources result w.heap).origin result).Gives w v ∧
    (∀ ref u, h'.boxes[ref]? = some u →
      ((b.flow args sources result w.heap).origin (.inside ref)).Gives w u) ∧
    (∀ p, p ≠ result → (∀ ref, p ≠ .inside ref) →
      (b.flow args sources result w.heap).origin p = .place p) ∧
    h'.frames = w.heap.frames ∧
    h'.boxes.size = w.heap.boxes.size + (b.flow args sources result w.heap).boxes := by
  have outside : ∀ ref, Place.inside ref ≠ result := fun ref => Ne.symm (hresult ref)
  generalize hw : w.heap = h at applied
  cases applied with
  | @box a _ =>
      cases gives with
      | @cons source _ sources _ first rest =>
      cases rest
      have first' := old source List.mem_cons_self
      refine ⟨?_, ?_, ?_, rfl, ?_⟩
      · simp [Builtin.flow, hresult, Source.Gives, hw]
      · intro ref u hu
        rw [Heap.boxes_addBox, Array.getElem?_push] at hu
        split at hu
        · rename_i href
          subst href
          cases hu
          simpa [Builtin.flow] using first
        · rename_i href
          simpa [Builtin.flow, href, outside, Source.Gives, World.valueAt, hw] using hu
      · intro p hp hinside
        simp [Builtin.flow, hp, hinside]
      · simp [Builtin.flow, Flow.boxes, first']
  | @setBox ref a _ =>
      cases gives with
      | @cons _ _ _ _ _ rest =>
      cases rest with
      | @cons source _ _ _ second rest =>
      cases rest
      have second' := old source (List.mem_cons_of_mem _ List.mem_cons_self)
      refine ⟨?_, ?_, ?_, rfl, ?_⟩
      · simp [Builtin.flow, hresult, Source.Gives]
      · intro ref' u hu
        rw [Heap.boxes_setBox, Array.getElem?_setIfInBounds] at hu
        split at hu
        · rename_i href
          subst href
          split at hu
          · cases hu
            simpa [Builtin.flow] using second
          · cases hu
        · rename_i href
          simpa [Builtin.flow, Ne.symm href, outside, Source.Gives, World.valueAt, hw] using hu
      · intro p hp hinside
        simp [Builtin.flow, hp, hinside]
      · simp [Builtin.flow, Flow.boxes, second']
  | @unbox ref a _ hcontents defined =>
      refine ⟨?_, ?_, ?_, rfl, rfl⟩
      · simpa [Builtin.flow, Source.Gives, World.valueAt, hw] using
          Heap.getElem?_of_contents hcontents defined
      · intro ref' u hu
        simpa [Builtin.flow, outside, Source.Gives, World.valueAt, hw] using hu
      · intro p hp _
        simp [Builtin.flow, hp]
  | isZero | isEqual | isLess | not | plus | minus | mult | add1 | sub1 | void =>
      refine ⟨?_, ?_, ?_, rfl, rfl⟩
      · simp [Builtin.flow, Source.Gives]
      · intro ref' u hu
        simpa [Builtin.flow, outside, Source.Gives, World.valueAt, hw] using hu
      · intro p hp _
        simp [Builtin.flow, hp]

theorem Flow.primitive_eq (b : Builtin) {args : List Value} {sources : List Source}
    {result : Place} {h : Heap} :
    primitive b.name args sources result h = b.flow args sources result h := by
  cases b <;> rfl

namespace Machine

variable {h h' : Heap} {s : State} {held : List Value} {e : Expr} {env env' : Env} {k k' : Kont}
variable {stack below : Stack} {v : Value} {source : Source} {sources : List Source}
variable {names : List Name} {values : List Value} {parent : Option Env}

theorem gives_gathered : List.Forall₂
    (fun source w => source.Gives ⟨h, some ⟨.returning v, env, below.push k⟩, held⟩ w)
    (k.gathered below.frames.length) (k.values ++ [v]) := by
  refine List.rel_append (forall₂_range_map ?_) (.cons rfl .nil)
  intro i w hw
  rw [Source.Gives, World.valueAt, Option.bind_some, Stack.valueAt_push, if_pos rfl]
  exact hw

theorem gathered_ne_box {depth : Nat} (h : source ∈ k.gathered depth) : source ≠ .box := by
  rcases List.mem_append.mp h with h | h
  · obtain ⟨i, -, rfl⟩ := List.mem_map.mp h
    nofun
  · rw [List.mem_singleton.mp h]
    nofun

/-- Another part is evaluated, and nothing has been written. -/
theorem follows_evaluating (within : stack.Within s.stack) :
    World.Follows ⟨h, some s, held⟩ [] ⟨h, some ⟨.evaluating e, env, stack⟩, held⟩ := by
  refine ⟨?_, rfl⟩
  intro p w hw
  cases p with
  | control => cases hw
  | waiting depth index => exact within depth index w hw
  | cell | inside | held => exact hw

/-- The frame on top has gathered the value at hand. -/
theorem follows_holding (hk : k'.values = k.values ++ [v]) :
    World.Follows ⟨h, some ⟨.returning v, env, below.push k⟩, held⟩
      [(.waiting below.frames.length k.values.length, .place .control)]
      ⟨h, some ⟨.evaluating e, env', below.push k'⟩, held⟩ := by
  refine ⟨?_, rfl⟩
  intro p w hw
  cases p with
  | control => cases hw
  | waiting depth index =>
      rw [World.valueAt, Option.bind_some, Stack.valueAt_push, hk] at hw
      rw [Flow.origin_cons, Flow.origin_nil]
      split at hw
      · rename_i hdepth
        subst hdepth
        rw [getElem?_snoc] at hw
        split at hw
        · rename_i hindex
          rw [if_pos (by rw [hindex])]
          exact hw
        · rename_i hindex
          rw [if_neg (by simp [hindex]), Source.Gives, World.valueAt, Option.bind_some,
            Stack.valueAt_push, if_pos rfl]
          exact hw
      · rename_i hdepth
        rw [if_neg (by simp [hdepth]), Source.Gives, World.valueAt, Option.bind_some,
          Stack.valueAt_push, if_neg hdepth]
        exact hw
  | cell | inside | held => exact hw

/-- A value is returned, and neither cells nor boxes have been written. -/
theorem follows_returning (frames : h'.frames = h.frames) (boxes : h'.boxes = h.boxes)
    (within : stack.Within s.stack) (gives : source.Gives ⟨h, some s, held⟩ v)
    (old : source ≠ .box) :
    World.Follows ⟨h, some s, held⟩ [(.control, source)]
      ⟨h', some ⟨.returning v, env, stack⟩, held⟩ := by
  refine ⟨?_, by simp [Flow.boxes, old, boxes]⟩
  intro p w hw
  cases p with
  | control =>
      cases hw
      exact gives
  | waiting depth index => exact within depth index w hw
  | cell place x =>
      rw [World.valueAt, Heap.cell?, frames] at hw
      exact hw
  | inside ref =>
      rw [World.valueAt, boxes] at hw
      exact hw
  | held => exact hw

/-- The value at hand stays there while the frame on top goes. -/
theorem follows_passing {control : Control} (hcontrol : control.values = [v]) :
    World.Follows ⟨h, some ⟨.returning v, env, below.push k⟩, held⟩ []
      ⟨h, some ⟨control, env', below⟩, held⟩ := by
  refine ⟨?_, rfl⟩
  intro p w hw
  cases p with
  | control =>
      rw [World.valueAt, Option.bind_some, hcontrol] at hw
      exact hw
  | waiting depth index => exact Stack.Within.push below k depth index w hw
  | cell | inside | held => exact hw

/-- A new frame has been made, in which the next part is evaluated. -/
theorem follows_binding (within : stack.Within s.stack)
    (gives : List.Forall₂ (fun source w => source.Gives ⟨h, some s, held⟩ w) sources values)
    (old : ∀ source ∈ sources, source ≠ .box) :
    World.Follows ⟨h, some s, held⟩ (.bind h.frames.size names sources)
      ⟨h.addFrame ⟨names.zip values, parent⟩, some ⟨.evaluating e, env, stack⟩, held⟩ := by
  refine ⟨?_, by rw [Flow.boxes_bind old]; rfl⟩
  intro p w hw
  cases p with
  | control => cases hw
  | waiting depth index =>
      rw [Flow.origin_bind_of_ne (p := .waiting depth index) fun _ => nofun]
      exact within depth index w hw
  | cell place x =>
      rw [World.valueAt, Heap.cell?, Heap.frames_addFrame, Array.getElem?_push] at hw
      split at hw
      · rename_i hplace
        subst hplace
        exact Flow.origin_bind (R := fun source w => source.Gives _ w) _ gives hw
      · rename_i hplace
        rw [Flow.origin_bind_of_ne (by simp [hplace])]
        exact hw
  | inside ref =>
      rw [Flow.origin_bind_of_ne (p := .inside ref) fun _ => nofun]
      exact hw
  | held index =>
      rw [Flow.origin_bind_of_ne (p := .held index) fun _ => nofun]
      exact hw

/-- A recursive binding has filled its frame. -/
theorem follows_filling {u : Unit} {inner : Env} (within : stack.Within s.stack)
    (gives : List.Forall₂ (fun source w => source.Gives ⟨h, some s, held⟩ w) sources values)
    (old : ∀ source ∈ sources, source ≠ .box)
    (ok : inner.assignAll (names.zip values) h = .ok u h') :
    World.Follows ⟨h, some s, held⟩ (.fill h inner names sources)
      ⟨h', some ⟨.evaluating e, env, stack⟩, held⟩ := by
  have boxes : h'.boxes = h.boxes := by
    refine Env.assignAll_invariant (P := fun h' => h'.boxes = h.boxes) ?_ ok rfl
    intro x w u h₁ h₂ _ ok same
    obtain ⟨owner, old, -, rfl⟩ := Env.assign_eq_ok_iff.mp ok
    exact same
  refine ⟨?_, by rw [Flow.boxes_fill old, boxes]; rfl⟩
  intro p w hw
  cases p with
  | control => cases hw
  | waiting depth index =>
      rw [Flow.origin_fill_of_ne (p := .waiting depth index) fun _ _ => nofun]
      exact within depth index w hw
  | cell place x =>
      rcases Flow.fill_follows gives ok hw with ⟨source, found, hsource⟩ | ⟨missing, here⟩
      · rw [Flow.origin, found]
        exact hsource
      · rw [Flow.origin, missing]
        exact here
  | inside ref =>
      rw [Flow.origin_fill_of_ne (p := .inside ref) fun _ _ => nofun]
      rw [World.valueAt, boxes] at hw
      exact hw
  | held index =>
      rw [Flow.origin_fill_of_ne (p := .held index) fun _ _ => nofun]
      exact hw

/-- The value at hand has been assigned. -/
theorem follows_assigning {owner : Env} {x : Name} :
    World.Follows ⟨h, some ⟨.returning v, env, below.push k⟩, held⟩
      [(.cell owner x, .place .control), (.control, .plain)]
      ⟨h.rebind owner x v, some ⟨.returning .unit, env', below⟩, held⟩ := by
  refine ⟨?_, rfl⟩
  intro p w hw
  cases p with
  | control =>
      cases hw
      simp [Source.Gives]
  | waiting depth index => exact Stack.Within.push below k depth index w hw
  | cell place y =>
      rcases Heap.cell?_rebind hw with ⟨rfl, rfl, rfl⟩ | ⟨other, here⟩
      · simp [Source.Gives, World.valueAt, Control.values]
      · rw [Flow.origin_cons, if_neg (by simpa using other)]
        exact here
  | inside | held => exact hw

/-- A primitive has been called. -/
theorem follows_applying {name : Name} {args : List Value} (within : stack.Within s.stack)
    (ok : Table.standard.apply name args h = .ok v h')
    (gives : List.Forall₂ (fun source w => source.Gives ⟨h, some s, held⟩ w) sources args)
    (old : ∀ source ∈ sources, source ≠ .box) :
    World.Follows ⟨h, some s, held⟩ (.primitive name args sources .control h)
      ⟨h', some ⟨.returning v, env, stack⟩, held⟩ := by
  obtain ⟨b, rfl, applied⟩ := Table.apply_standard_eq_ok_iff.mp ok
  have hresult : ∀ ref, Place.control ≠ .inside ref := fun _ => nofun
  obtain ⟨result, inside, others, frames, boxes⟩ :=
    applied.follows (w := ⟨h, some s, held⟩) gives old hresult
  rw [Flow.primitive_eq]
  refine ⟨?_, boxes⟩
  intro p w hw
  cases p with
  | control =>
      cases hw
      exact result
  | waiting depth index =>
      rw [others (.waiting depth index) nofun fun _ => nofun]
      exact within depth index w hw
  | cell place x =>
      rw [others (.cell place x) nofun fun _ => nofun]
      rw [World.valueAt, Heap.cell?, frames] at hw
      exact hw
  | inside ref => exact inside ref w hw
  | held index =>
      rw [others (.held index) nofun fun _ => nofun]
      exact hw

theorem State.flow_push : State.flow ⟨.returning v, env, below.push k⟩ h =
    k.flow h v below.frames.length := rfl

theorem Transition.follows {s' : State} (t : Transition .standard s h s' h') :
    World.Follows ⟨h, some s, held⟩ (s.flow h) ⟨h', some s', held⟩ := by
  cases t with
  | @datum d =>
      refine follows_returning rfl rfl (.refl _) ?_ nofun
      intro ref
      cases d <;> nofun
  | ref hx =>
      obtain ⟨rfl, owner, found⟩ := Env.lookup_eq_ok_iff.mp hx
      simp only [State.flow, Expr.flow, Heap.owner?, found, Option.map_some]
      exact follows_returning rfl rfl (.refl _) (Heap.cell?_of_find? found) nofun
  | lambda hf =>
      cases hf
      exact follows_returning rfl rfl (.refl _) nofun nofun
  | cond | assign | seqFirst | letFirst | primFirst | app =>
      exact follows_evaluating (.push_empty rfl)
  | seqOne | letNone => exact follows_evaluating (.refl _)
  | letRecFirst _ hx =>
      obtain ⟨-, -, rfl, rfl⟩ := Env.extend_eq_ok_iff.mp hx
      refine follows_binding (.push_empty rfl) ?_ ?_
      · refine List.forall₂_map_left_iff.mpr (List.forall₂_map_right_iff.mpr ?_)
        exact List.forall₂_same.mpr fun _ _ => nofun
      · intro source hsource
        obtain ⟨-, -, rfl⟩ := List.mem_map.mp hsource
        nofun
  | primNone hv => exact follows_applying (.refl _) hv .nil nofun
  | halt => exact follows_passing rfl
  | chosen => exact follows_evaluating (.push _ _)
  | assigned hx =>
      obtain ⟨owner, w, found, rfl⟩ := Env.assign_eq_ok_iff.mp hx
      rw [State.flow_push]
      simp only [Kont.flow, Heap.owner?, found, Option.map_some]
      exact follows_assigning
  | seqNext => exact follows_evaluating (.push_of_empty rfl)
  | seqLast => exact follows_evaluating (.push _ _)
  | seqPast => exact follows_passing rfl
  | letNext hnext | letRecNext hnext | primNext hnext | operandNext hnext =>
      rw [State.flow_push]
      simp only [Kont.flow, hnext]
      exact follows_holding rfl
  | operandFirst => exact follows_holding rfl
  | letDone hnone hx =>
      obtain ⟨-, -, rfl, rfl⟩ := Env.extend_eq_ok_iff.mp hx
      rw [State.flow_push]
      simp only [Kont.flow, hnone]
      exact follows_binding (.push _ _) gives_gathered fun _ => gathered_ne_box
  | letRecDone hnone hx =>
      rw [State.flow_push]
      simp only [Kont.flow, hnone]
      exact follows_filling (.push _ _) gives_gathered (fun _ => gathered_ne_box) hx
  | primDone hnone hw =>
      rw [State.flow_push]
      simp only [Kont.flow, hnone]
      exact follows_applying (.push _ _) hw gives_gathered fun _ => gathered_ne_box
  | callNone _ hx =>
      obtain ⟨-, -, rfl, rfl⟩ := Env.extend_eq_ok_iff.mp hx
      rw [State.flow_push]
      exact follows_binding (.push _ _) .nil nofun
  | call hnone _ hx =>
      obtain ⟨-, -, rfl, rfl⟩ := Env.extend_eq_ok_iff.mp hx
      rw [State.flow_push]
      simp only [Kont.flow, hnone]
      -- the operator is gathered before the operands and is not bound to a name
      exact follows_binding (.push _ _) (tail_of_forall₂ gives_gathered)
        fun _ mem => gathered_ne_box (List.mem_of_mem_tail mem)
  | halted =>
      refine ⟨?_, rfl⟩
      intro p w hw
      exact hw

end Machine

end CoreLisp
