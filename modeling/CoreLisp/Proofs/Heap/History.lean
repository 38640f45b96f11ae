import CoreLisp.Proofs.Heap.Scopes

/-!
# Environments and their history

Environments share frames, so an assignment through one of them can be seen through
others. What is seen can be told from the history alone, without the heap: the frames
as they were created say where a name is bound, and the last assignment that found the
name in the same frame says what its value is.

A history is a list of uses of environments, the latest one last. An environment is the
number of its frame among those created, which is how the heap numbers them too.
-/
namespace CoreLisp.Env

/-- What can be done with environments. -/
inductive Use where
  | empty
  | extend (env : Env) (names : List Name) (values : List Value)
  | assign (env : Env) (x : Name) (v : Value)
  | lookup (env : Env) (x : Name)

namespace Use

/-- The environment that is used. -/
def env? : Use → Option Env
  | empty => none
  | extend env .. | assign env .. | lookup env _ => some env

/-- The frame that is created. -/
def frame? : Use → Option Frame
  | empty => some ⟨[], none⟩
  | extend env names values =>
      if names.length = values.length ∧ names.Nodup then some ⟨names.zip values, some env⟩ else none
  | assign .. | lookup .. => none

def perform : Use → Action Unit
  | empty => fun h => .ok () h.newRoot.2
  | extend env names values => do
      let _ ← env.extend names values
  | assign env x v => env.assign x v
  | lookup env x => do
      let _ ← env.lookup x

/-- The heap after a use, whether it succeeds or fails. -/
def after (h : Heap) (u : Use) : Heap :=
  match u.perform h with
  | .ok _ h' | .error _ h' => h'

end Use

/-- The heap after a history that begins with nothing. -/
def heapAfter (uses : List Use) : Heap := uses.foldl Use.after {}

/-- The frames of a history, as they were created. -/
def created (uses : List Use) : List Frame := uses.filterMap Use.frame?

/-- Every environment that is used has been created before. -/
inductive Issued : List Use → Prop
  | none : Issued []
  | next {uses : List Use} {u : Use} : Issued uses →
      (∀ env, u.env? = some env → env < (created uses).length) → Issued (uses ++ [u])

/-- The frame at `place` is the one of the environment or one around it. -/
inductive OnChain (frames : List Frame) : Env → Env → Prop
  | here {env : Env} : OnChain frames env env
  | outer {env outer place : Env} {f : Frame} : frames[env]? = some f → f.parent = some outer →
      OnChain frames outer place → OnChain frames env place

/-- Some frame of the environment binds the name. -/
def Bound (frames : List Frame) (env : Env) (x : Name) : Prop :=
  ∃ place f, OnChain frames env place ∧ frames[place]? = some f ∧ x ∈ f.names

/-- The nearest frame of the environment that binds the name is at `owner`. -/
inductive Nearest (frames : List Frame) (x : Name) : Env → Env → Prop
  | here {env : Env} {f : Frame} : frames[env]? = some f → x ∈ f.names → Nearest frames x env env
  | outer {env outer owner : Env} {f : Frame} : frames[env]? = some f → x ∉ f.names →
      f.parent = some outer → Nearest frames x outer owner → Nearest frames x env owner

/-- The name has this value in the frame at `owner`: it was assigned last of all that was
assigned to the name there, or nothing was and the frame was created with it. -/
inductive Recorded (uses : List Use) (owner : Env) (x : Name) : Value → Prop
  | assigned {before after : List Use} {env : Env} {v : Value} :
      uses = before ++ .assign env x v :: after → Nearest (created uses) x env owner →
      (∀ env' w, .assign env' x w ∈ after → ¬ Nearest (created uses) x env' owner) →
      Recorded uses owner x v
  | initial {f : Frame} {v : Value} : (created uses)[owner]? = some f → f.get? x = some v →
      (∀ env w, .assign env x w ∈ uses → ¬ Nearest (created uses) x env owner) →
      Recorded uses owner x v

variable {uses : List Use} {u : Use} {frames : List Frame} {f : Frame} {env outer owner : Env}
variable {x : Name} {v : Value} {h h' : Heap}

/-- A frame is created after the one around it. -/
def Ordered (frames : List Frame) : Prop :=
  ∀ (place : Env) (f : Frame) (outer : Env), frames[place]? = some f → f.parent = some outer →
    outer < place

theorem Ordered.snoc (ordered : Ordered frames)
    (hparent : ∀ outer, f.parent = some outer → outer < frames.length) :
    Ordered (frames ++ [f]) := by
  intro place g outer hg hp
  rw [getElem?_snoc] at hg
  split at hg
  · rename_i hnew
    cases hg
    exact hnew ▸ hparent outer hp
  · exact ordered place g outer hg hp

theorem Nearest.le (near : Nearest frames x env owner) (ordered : Ordered frames) :
    owner ≤ env := by
  induction near with
  | here => exact Nat.le_refl _
  | outer hf _ hp _ ih => exact Nat.le_trans ih (Nat.le_of_lt (ordered _ _ _ hf hp))

theorem Nearest.unique {other : Env} (near : Nearest frames x env owner)
    (near' : Nearest frames x env other) : owner = other := by
  induction near with
  | here hf hx =>
      cases near' with
      | here => rfl
      | outer hf' hx' =>
          cases hf.symm.trans hf'
          exact absurd hx hx'
  | outer hf hx hp _ ih =>
      cases near' with
      | here hf' hx' =>
          cases hf.symm.trans hf'
          exact absurd hx' hx
      | outer hf' _ hp' rest =>
          cases hf.symm.trans hf'
          cases hp.symm.trans hp'
          exact ih rest

/-- Frames that are created later do not stand between an environment and its names. -/
theorem nearest_snoc_iff (ordered : Ordered frames) (henv : env < frames.length) :
    Nearest (frames ++ [f]) x env owner ↔ Nearest frames x env owner := by
  constructor
  · intro near
    induction near with
    | here hg hx =>
        rw [List.getElem?_append_left henv] at hg
        exact .here hg hx
    | outer hg hx hp _ ih =>
        rw [List.getElem?_append_left henv] at hg
        exact .outer hg hx hp (ih (Nat.lt_trans (ordered _ _ _ hg hp) henv))
  · intro near
    induction near with
    | here hg hx => exact .here (by rwa [List.getElem?_append_left henv]) hx
    | outer hg hx hp _ ih =>
        refine .outer ?_ hx hp (ih (Nat.lt_trans (ordered _ _ _ hg hp) henv))
        rwa [List.getElem?_append_left henv]

theorem exists_nearest_iff : (∃ owner, Nearest frames x env owner) ↔ Bound frames env x := by
  constructor
  · rintro ⟨owner, near⟩
    induction near with
    | here hf hx => exact ⟨_, _, .here, hf, hx⟩
    | outer hf _ hp _ ih =>
        obtain ⟨place, g, chain, hg, hx⟩ := ih
        exact ⟨place, g, .outer hf hp chain, hg, hx⟩
  · rintro ⟨place, g, chain, hg, hx⟩
    induction chain with
    | here => exact ⟨_, .here hg hx⟩
    | @outer env outer _ f hf hp _ ih =>
        by_cases here : x ∈ f.names
        · exact ⟨env, .here hf here⟩
        · obtain ⟨owner, near⟩ := ih hg
          exact ⟨owner, .outer hf here hp near⟩

/-- The frames on the heap are those of the history with their recorded values. -/
structure Agrees (uses : List Use) (h : Heap) : Prop where
  size : h.frames.size = (created uses).length
  ordered : Ordered (created uses)
  frame : ∀ (place : Env) (f : Frame), (created uses)[place]? = some f →
    ∃ g, h.frames[place]? = some g ∧ g.names = f.names ∧ g.parent = f.parent
  value : ∀ (place : Env) (g : Frame) (x : Name) (v : Value), h.frames[place]? = some g →
    g.get? x = some v → Recorded uses place x v

namespace Agrees

/-- The walk outward on the heap finds the nearest binding of the history. -/
theorem nearest (agrees : Agrees uses h) (found : h.find? x env = some (owner, v)) :
    Nearest (created uses) x env owner := by
  induction env using Nat.strongRecOn with
  | ind env ih =>
      obtain ⟨g, hg, walk⟩ := Heap.find?_cases found
      have hlt := (Array.getElem?_eq_some_iff.mp hg).1
      rw [agrees.size] at hlt
      have hf := List.getElem?_eq_getElem hlt
      obtain ⟨g', hg', hnames, hparent⟩ := agrees.frame env _ hf
      cases hg.symm.trans hg'
      rcases walk with ⟨hx, rfl⟩ | ⟨hx, outer, hlt, hp, found⟩
      · exact .here hf (hnames ▸ Frame.isSome_get?_iff.mp (hx ▸ rfl))
      · exact .outer hf (hnames ▸ Frame.get?_eq_none_iff.mp hx) (hparent ▸ hp) (ih outer hlt found)

theorem find?_of_nearest (agrees : Agrees uses h) (near : Nearest (created uses) x env owner) :
    ∃ v, h.find? x env = some (owner, v) := by
  induction near with
  | here hf hx =>
      obtain ⟨g, hg, hnames, -⟩ := agrees.frame _ _ hf
      obtain ⟨v, hv⟩ := Option.isSome_iff_exists.mp (Frame.isSome_get?_iff.mpr (hnames ▸ hx))
      exact ⟨v, Heap.find?_here hg hv⟩
  | outer hf hx hp _ ih =>
      obtain ⟨g, hg, hnames, hparent⟩ := agrees.frame _ _ hf
      have missing : g.get? x = none := Frame.get?_eq_none_iff.mpr (hnames ▸ hx)
      obtain ⟨v, hv⟩ := ih
      have hlt := agrees.ordered _ _ _ hf hp
      exact ⟨v, (Heap.find?_outer hg missing (hparent.trans hp) hlt).trans hv⟩

theorem find?_eq_none_iff (agrees : Agrees uses h) :
    h.find? x env = none ↔ ¬ Bound (created uses) env x := by
  rw [← exists_nearest_iff]
  constructor
  · rintro missing ⟨owner, near⟩
    obtain ⟨v, found⟩ := agrees.find?_of_nearest near
    rw [missing] at found
    cases found
  · intro unbound
    cases found : h.find? x env with
    | none => rfl
    | some binding => exact absurd ⟨binding.1, agrees.nearest found⟩ unbound

end Agrees

namespace Use

/-- The environment that is used is the one around the new frame. -/
theorem parent_of_frame (hu : u.frame? = some f) : f.parent = u.env? := by
  cases u with
  | empty =>
      cases hu
      rfl
  | extend env names values =>
      simp only [frame?] at hu
      split at hu
      · cases hu
        rfl
      · cases hu
  | assign | lookup => cases hu

theorem after_of_ok (ok : u.perform h = .ok () h') : u.after h = h' := by
  rw [after, ok]

theorem after_of_error {e : EvalError} (fail : u.perform h = .error e h') : u.after h = h' := by
  rw [after, fail]

theorem after_of_frame (hu : u.frame? = some f) : u.after h = h.addFrame f := by
  cases u with
  | empty =>
      cases hu
      rfl
  | extend env names values =>
      simp only [frame?] at hu
      split at hu
      · rename_i valid
        cases hu
        have ok : env.extend names values h =
            .ok h.frames.size (h.addFrame ⟨names.zip values, some env⟩) :=
          extend_eq_ok_iff.mpr ⟨valid.1, valid.2, rfl, rfl⟩
        exact after_of_ok (Action.bind_eq_ok_iff.mpr ⟨_, _, ok, rfl⟩)
      · cases hu
  | assign | lookup => cases hu

/-- A use that fails changes nothing. -/
theorem heap_of_error {e : EvalError} (fail : u.perform h = .error e h') : h' = h := by
  cases u with
  | empty => cases fail
  | extend env names values =>
      rcases Action.bind_eq_error_iff.mp fail with hx | ⟨_, _, _, done⟩
      · exact (extend_eq_error_iff.mp hx).1
      · cases done
  | assign env x v => exact (assign_eq_error_iff.mp fail).1
  | lookup env x =>
      rcases Action.bind_eq_error_iff.mp fail with hx | ⟨_, _, _, done⟩
      · exact (lookup_eq_error_iff.mp hx).1
      · cases done

/-- A use that creates no frame is an assignment that finds the name, or changes nothing. -/
theorem after_of_no_frame (hu : u.frame? = none) :
    (∃ env x v owner w, u = .assign env x v ∧ h.find? x env = some (owner, w) ∧
      u.after h = h.rebind owner x v) ∨
    ((∀ env x v, u = .assign env x v → h.find? x env = none) ∧ u.after h = h) := by
  cases hp : u.perform h with
  | error e h' =>
      obtain rfl := heap_of_error hp
      refine .inr ⟨?_, after_of_error hp⟩
      rintro env x v rfl
      exact (assign_eq_error_iff.mp hp).2.1
  | ok _ h' =>
      cases u with
      | empty => cases hu
      | extend env names values =>
          obtain ⟨inner, h₁, hx, -⟩ := Action.bind_eq_ok_iff.mp hp
          obtain ⟨hlen, hdup, -, -⟩ := extend_eq_ok_iff.mp hx
          rw [frame?, if_pos ⟨hlen, hdup⟩] at hu
          cases hu
      | assign env x v =>
          obtain ⟨owner, w, found, rfl⟩ := assign_eq_ok_iff.mp hp
          exact .inl ⟨env, x, v, owner, w, rfl, found, after_of_ok hp⟩
      | lookup env x =>
          obtain ⟨v, h₁, hx, done⟩ := Action.bind_eq_ok_iff.mp hp
          obtain ⟨rfl, -⟩ := lookup_eq_ok_iff.mp hx
          cases done
          exact .inr ⟨nofun, after_of_ok hp⟩

end Use

theorem created_snoc : created (uses ++ [u]) = created uses ++ u.frame?.toList := by
  cases hu : u.frame? <;> simp [created, hu]

theorem heapAfter_snoc : heapAfter (uses ++ [u]) = u.after (heapAfter uses) := by
  simp [heapAfter]

theorem nearest_created_snoc_iff (ordered : Ordered (created uses))
    (henv : env < (created uses).length) :
    Nearest (created (uses ++ [u])) x env owner ↔ Nearest (created uses) x env owner := by
  rw [created_snoc]
  cases u.frame? with
  | none => rw [Option.toList_none, List.append_nil]
  | some f => exact nearest_snoc_iff ordered henv

theorem Issued.lt_length (issued : Issued uses) (mem : u ∈ uses) (hu : u.env? = some env) :
    env < (created uses).length := by
  induction issued with
  | none => cases mem
  | @next uses last _ here ih =>
      have grown : (created uses).length ≤ (created (uses ++ [last])).length := by
        rw [created_snoc, List.length_append]
        exact Nat.le_add_right _ _
      rcases List.mem_append.mp mem with mem | mem
      · exact Nat.lt_of_lt_of_le (ih mem) grown
      · obtain rfl := List.mem_singleton.mp mem
        exact Nat.lt_of_lt_of_le (here env hu) grown

/-- What is recorded stays recorded until the name is assigned to in the same frame. -/
theorem Recorded.snoc (recorded : Recorded uses owner x v) (issued : Issued uses)
    (ordered : Ordered (created uses))
    (other : ∀ env w, u = .assign env x w → ¬ Nearest (created (uses ++ [u])) x env owner) :
    Recorded (uses ++ [u]) owner x v := by
  have earlier : ∀ env w, Use.assign env x w ∈ uses →
      (Nearest (created (uses ++ [u])) x env owner ↔ Nearest (created uses) x env owner) :=
    fun env w mem => nearest_created_snoc_iff ordered (issued.lt_length mem rfl)
  cases recorded with
  | @assigned before after env _ huses near later =>
      have mem : Use.assign env x v ∈ uses := huses ▸ List.mem_append_right _ List.mem_cons_self
      refine @assigned _ _ _ before (after ++ [u]) env v ?_ ((earlier env v mem).mpr near) ?_
      · rw [huses, List.append_assoc, List.cons_append]
      · intro env' w mem'
        rcases List.mem_append.mp mem' with mem' | mem'
        · have mem : Use.assign env' x w ∈ uses :=
            huses ▸ List.mem_append_right _ (List.mem_cons_of_mem _ mem')
          rw [earlier env' w mem]
          exact later env' w mem'
        · exact other env' w (List.mem_singleton.mp mem').symm
  | @initial f _ hf hv never =>
      refine .initial (f := f) ?_ hv ?_
      · rw [created_snoc, List.getElem?_append_left (List.getElem?_eq_some_iff.mp hf).1]
        exact hf
      · intro env w mem
        rcases List.mem_append.mp mem with mem | mem
        · rw [earlier env w mem]
          exact never env w mem
        · exact other env w (List.mem_singleton.mp mem).symm

namespace Agrees

theorem of_frame (agrees : Agrees uses h) (issued : Issued uses) (hu : u.frame? = some f)
    (henv : ∀ env, u.env? = some env → env < (created uses).length) :
    Agrees (uses ++ [u]) (h.addFrame f) := by
  have hcreated : created (uses ++ [u]) = created uses ++ [f] := by rw [created_snoc, hu]; rfl
  have noAssign : ∀ env x w, u ≠ .assign env x w := by
    rintro env x w rfl
    cases hu
  have ordered : Ordered (created uses ++ [f]) :=
    agrees.ordered.snoc fun outer hp => henv outer (Use.parent_of_frame hu ▸ hp)
  refine ⟨?_, hcreated ▸ ordered, ?_, ?_⟩
  · rw [hcreated, Heap.frames_addFrame, Array.size_push, agrees.size, List.length_append,
      List.length_singleton]
  · intro place g hg
    rw [hcreated, getElem?_snoc] at hg
    rw [Heap.frames_addFrame, Array.getElem?_push, agrees.size]
    split at hg
    · rename_i hnew
      cases hg
      exact ⟨f, if_pos hnew, rfl, rfl⟩
    · rename_i hold
      rw [if_neg hold]
      exact agrees.frame place g hg
  · intro place g x v hg hx
    rw [Heap.frames_addFrame, Array.getElem?_push, agrees.size] at hg
    split at hg
    · rename_i hnew
      subst hnew
      cases hg
      refine .initial (f := f) ?_ hx ?_
      · rw [hcreated, getElem?_snoc, if_pos rfl]
      · intro env w mem near
        rcases List.mem_append.mp mem with mem | mem
        · -- an environment that was there before does not reach the new frame
          have hlt := issued.lt_length mem rfl
          have hle := near.le (hcreated ▸ ordered)
          exact absurd hlt (Nat.not_lt.mpr hle)
        · exact noAssign _ _ _ (List.mem_singleton.mp mem).symm
    · exact (agrees.value place g x v hg hx).snoc issued agrees.ordered
        fun env w hassign => absurd hassign (noAssign env x w)

theorem of_rebind {w : Value} (agrees : Agrees uses h) (issued : Issued uses)
    (found : h.find? x env = some (owner, w)) :
    Agrees (uses ++ [.assign env x v]) (h.rebind owner x v) := by
  have hcreated : created (uses ++ [.assign env x v]) = created uses := by
    rw [created_snoc]
    exact List.append_nil _
  have near := agrees.nearest found
  obtain ⟨g, hg, hx⟩ := Heap.get?_of_find? found
  refine ⟨?_, hcreated.symm ▸ agrees.ordered, ?_, ?_⟩
  · rw [hcreated, Heap.frames_rebind, Array.size_modify, agrees.size]
  · intro place f hf
    rw [hcreated] at hf
    obtain ⟨g', hg', hnames, hparent⟩ := agrees.frame place f hf
    rw [Heap.frames_rebind, Array.getElem?_modify]
    split
    · refine ⟨g'.set x v, by rw [hg', Option.map_some], ?_, hparent⟩
      rw [Frame.names_set, hnames]
    · exact ⟨g', hg', hnames, hparent⟩
  · intro place g' y v' hg' hy
    rw [Heap.frames_rebind, Array.getElem?_modify] at hg'
    split at hg'
    · rename_i hplace
      subst hplace
      rw [hg] at hg'
      cases hg'
      by_cases hname : y = x
      · subst hname
        rw [Frame.get?_set_self (Frame.isSome_get?_iff.mp (hx ▸ rfl))] at hy
        cases hy
        exact @Recorded.assigned _ _ _ uses [] env _ rfl (hcreated.symm ▸ near) nofun
      · rw [Frame.get?_set_of_ne _ hname] at hy
        refine (agrees.value _ g y v' hg hy).snoc issued agrees.ordered ?_
        intro env' w' hassign
        cases hassign
        exact absurd rfl hname
    · rename_i hplace
      refine (agrees.value _ g' y v' hg' hy).snoc issued agrees.ordered ?_
      intro env' w' hassign near'
      cases hassign
      rw [hcreated] at near'
      exact hplace (near.unique near')

theorem of_same (agrees : Agrees uses h) (issued : Issued uses) (hu : u.frame? = none)
    (missing : ∀ env x v, u = .assign env x v → h.find? x env = none) :
    Agrees (uses ++ [u]) h := by
  have hcreated : created (uses ++ [u]) = created uses := by
    rw [created_snoc, hu]
    exact List.append_nil _
  refine ⟨hcreated.symm ▸ agrees.size, hcreated.symm ▸ agrees.ordered,
    hcreated.symm ▸ agrees.frame, ?_⟩
  intro place g x v hg hx
  refine (agrees.value place g x v hg hx).snoc issued agrees.ordered ?_
  intro env w hassign near
  rw [hcreated] at near
  obtain ⟨v', found⟩ := agrees.find?_of_nearest near
  rw [missing env x w hassign] at found
  cases found

/-- The heap follows the history use by use. -/
theorem of_issued (issued : Issued uses) : Agrees uses (heapAfter uses) := by
  induction issued with
  | none => exact ⟨rfl, nofun, nofun, nofun⟩
  | @next uses u issued henv agrees =>
      rw [heapAfter_snoc]
      cases hu : u.frame? with
      | some f =>
          rw [Use.after_of_frame hu]
          exact agrees.of_frame issued hu henv
      | none =>
          rcases Use.after_of_no_frame (h := heapAfter uses) hu with
            ⟨env, x, v, owner, w, rfl, found, hafter⟩ | ⟨missing, hafter⟩
          · rw [hafter]
            exact agrees.of_rebind issued found
          · rw [hafter]
            exact agrees.of_same issued hu missing

end Agrees

/-- A new frame is not seen from the environments that were there before. -/
theorem find?_addFrame (henv : env < h.frames.size) : (h.addFrame f).find? x env = h.find? x env := by
  induction env using Nat.strongRecOn with
  | ind env ih =>
      rw [Heap.find?, Heap.find?, Heap.frames_addFrame, Array.getElem?_push,
        if_neg (Nat.ne_of_lt henv)]
      cases h.frames[env]? with
      | none => rfl
      | some g =>
          cases hx : g.get? x with
          | some v => simp only [hx]
          | none =>
              cases hp : g.parent with
              | none => simp only [hx, hp]
              | some outer =>
                  by_cases hlt : outer < env
                  · simp only [hx, hp, if_pos hlt, ih outer hlt (Nat.lt_trans hlt henv)]
                  · simp only [hx, hp, if_neg hlt]

/-- After any history, a frame can be made if there are as many values as names and the
names differ. A name is found where some frame of the environment binds it, and is
unbound otherwise. Its value is the one that was assigned last through any environment
whose nearest binding of the name is in the same frame or, if there was no such
assignment, the one that the frame was created with. What fails changes nothing, and a
new frame changes nothing that an older environment sees. -/
theorem environments_follow_history (uses : List Use) (issued : Issued uses) :
    (∀ (env : Env) names values,
      (∃ inner h', env.extend names values (heapAfter uses) = .ok inner h') ↔
        names.length = values.length ∧ names.Nodup) ∧
    (∀ env x, Bound (created uses) env x →
      (∃ v, env.lookup x (heapAfter uses) = .ok v (heapAfter uses)) ∧
        ∀ v, ∃ h', env.assign x v (heapAfter uses) = .ok () h') ∧
    (∀ env x, ¬ Bound (created uses) env x →
      env.lookup x (heapAfter uses) = .error (.unboundName x) (heapAfter uses) ∧
        ∀ v, env.assign x v (heapAfter uses) = .error (.unboundName x) (heapAfter uses)) ∧
    (∀ (env : Env) x v h', env.lookup x (heapAfter uses) = .ok v h' →
      ∃ owner, Nearest (created uses) x env owner ∧ Recorded uses owner x v) ∧
    (∀ (u : Use) e h', u.perform (heapAfter uses) = .error e h' → h' = heapAfter uses) ∧
    (∀ (env : Env) names values inner h', env.extend names values (heapAfter uses) = .ok inner h' →
      inner = (created uses).length ∧ ∀ (other : Env), other < (created uses).length → ∀ x v,
        other.lookup x h' = .ok v h' ↔
          other.lookup x (heapAfter uses) = .ok v (heapAfter uses)) := by
  have agrees := Agrees.of_issued issued
  refine ⟨?_, ?_, ?_, ?_, fun u e h' => Use.heap_of_error, ?_⟩
  · intro env names values
    constructor
    · rintro ⟨inner, h', ok⟩
      obtain ⟨hlen, hdup, -, -⟩ := extend_eq_ok_iff.mp ok
      exact ⟨hlen, hdup⟩
    · rintro ⟨hlen, hdup⟩
      exact ⟨_, _, extend_eq_ok_iff.mpr ⟨hlen, hdup, rfl, rfl⟩⟩
  · intro env x bound
    obtain ⟨owner, near⟩ := exists_nearest_iff.mpr bound
    obtain ⟨w, found⟩ := agrees.find?_of_nearest near
    refine ⟨⟨w, lookup_eq_ok_iff.mpr ⟨rfl, owner, found⟩⟩, ?_⟩
    intro v
    exact ⟨_, assign_eq_ok_iff.mpr ⟨owner, w, found, rfl⟩⟩
  · intro env x unbound
    have missing := agrees.find?_eq_none_iff.mpr unbound
    refine ⟨lookup_eq_error_iff.mpr ⟨rfl, missing, rfl⟩, ?_⟩
    intro v
    exact assign_eq_error_iff.mpr ⟨rfl, missing, rfl⟩
  · intro env x v h' ok
    obtain ⟨-, owner, found⟩ := lookup_eq_ok_iff.mp ok
    obtain ⟨g, hg, hx⟩ := Heap.get?_of_find? found
    exact ⟨owner, agrees.nearest found, agrees.value owner g x v hg hx⟩
  · intro env names values inner h' ok
    obtain ⟨-, -, rfl, rfl⟩ := extend_eq_ok_iff.mp ok
    refine ⟨agrees.size, ?_⟩
    intro other hother x v
    rw [← agrees.size] at hother
    simp only [lookup_eq_ok_iff, true_and, find?_addFrame hother]

/-- An assignment through the inner environment, seen through the outer one. -/
theorem environments_follow_history_shared :
    ∃ uses, uses = [.empty, .extend 0 ["x"] [.integer 1], .extend 1 ["y"] [.integer 2],
        .assign 2 "x" (.integer 3)] ∧ Issued uses ∧
      Nearest (created uses) "x" 1 1 ∧ Recorded uses 1 "x" (.integer 3) := by
  have root : Issued ([] ++ [.empty]) := .next .none nofun
  have outer : Issued (([] ++ [.empty]) ++ [.extend 0 ["x"] [.integer 1]]) := by
    refine .next root ?_
    rintro _ ⟨⟩
    decide
  have inner : Issued ((([] ++ [.empty]) ++ [.extend 0 ["x"] [.integer 1]]) ++
      [.extend 1 ["y"] [.integer 2]]) := by
    refine .next outer ?_
    rintro _ ⟨⟩
    decide
  have issued : Issued (((([] ++ [.empty]) ++ [.extend 0 ["x"] [.integer 1]]) ++
      [.extend 1 ["y"] [.integer 2]]) ++ [.assign 2 "x" (.integer 3)]) := by
    refine .next inner ?_
    rintro _ ⟨⟩
    decide
  have written : heapAfter [.empty, .extend 0 ["x"] [.integer 1], .extend 1 ["y"] [.integer 2],
      .assign 2 "x" (.integer 3)] =
      ⟨#[⟨[], none⟩, ⟨[("x", .integer 3)], some 0⟩, ⟨[("y", .integer 2)], some 1⟩], #[], 0⟩ := by
    refine Use.after_of_ok (assign_eq_ok_iff.mpr ⟨1, .integer 1, ?_, rfl⟩)
    exact (Heap.find?_outer rfl rfl rfl Nat.one_lt_two).trans (Heap.find?_here rfl rfl)
  have found : (heapAfter [.empty, .extend 0 ["x"] [.integer 1], .extend 1 ["y"] [.integer 2],
      .assign 2 "x" (.integer 3)]).find? "x" 1 = some (1, .integer 3) := by
    rw [written]
    exact Heap.find?_here rfl rfl
  have ok := lookup_eq_ok_iff.mpr ⟨rfl, 1, found⟩
  obtain ⟨owner, near, recorded⟩ := (environments_follow_history _ issued).2.2.2.1 _ _ _ _ ok
  have here : Nearest (created [.empty, .extend 0 ["x"] [.integer 1], .extend 1 ["y"] [.integer 2],
      .assign 2 "x" (.integer 3)]) "x" 1 1 := .here rfl List.mem_cons_self
  obtain rfl := here.unique near
  exact ⟨_, rfl, issued, here, recorded⟩

end CoreLisp.Env
