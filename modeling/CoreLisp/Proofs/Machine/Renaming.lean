import CoreLisp.Proofs.Machine.Parallel
import CoreLisp.Proofs.Machine.Relocate

/-!
# Renamed programs

Two programs that differ in the names they bind go through their runs side by side. At
each step the stacks are as deep, whether the runs come to an end or not, and when they
do so they end alike. What is left to tell the programs apart is the text of a procedure,
which shows its names, and a complaint that quotes it.
-/
namespace CoreLisp

open CoreLisp.Action

/-- The values are alike down to the depth, each with the contents that it has on its own
heap. Of a procedure it counts how many arguments it takes. -/
def Value.Alike (h h' : Heap) : Nat → Value → Value → Prop
  | 0, _, _ => True
  | depth + 1, v, v' =>
      match v, v' with
      | .integer n, .integer m => n = m
      | .boolean a, .boolean b => a = b
      | .undefined, .undefined => True
      | .unit, .unit => True
      | .box ref, .box ref' => Alike h h' depth (h.contents ref) (h'.contents ref')
      | .procedure f, .procedure f' => f.params.length = f'.params.length
      | _, _ => False

variable {w : Sides} {site : Site} {h h' : Heap} {v v' : Value} {e e' : Expr} {s s' : State}
variable {fuel depth : Nat}

namespace Value.Alike

theorem of_matches (agree : w.Agree .names) (hv : v.Matches .names w v') (depth : Nat) :
    v.Alike w.left w.right depth v' := by
  induction depth generalizing v v' with
  | zero => trivial
  | succ depth ih =>
      cases hv with
      | integer | boolean => exact rfl
      | undefined | unit => trivial
      | box ref => exact ih (agree.contents ref)
      | procedure _ _ params => exact params.1

theorem behind (alike : v.Alike h h' depth v') :
    (v.relocate site).Alike (site.behind h) (site.behind h') depth (v'.relocate site) := by
  induction depth generalizing v v' with
  | zero => trivial
  | succ depth ih =>
      cases v <;> cases v' <;> try exact alike
      rename_i ref ref'
      have inside := @ih (h.contents ref) (h'.contents ref') alike
      rw [← Heap.contents_behind, ← Heap.contents_behind] at inside
      exact inside

end Value.Alike

namespace Machine

/-- The runs ended alike: with values that are alike to any depth, or in errors that are. -/
def Alike : Ending → Ending → Prop
  | .ok v h, .ok v' h' => ∀ depth, v.Alike h h' depth v'
  | .error e _, .error e' _ => e.Alike e'
  | _, _ => False

theorem Alike.moved {a a' : Ending} (alike : Alike a a') :
    Alike (Action.moved site (Value.relocate site) a)
      (Action.moved site (Value.relocate site) a') := by
  cases a <;> cases a' <;> try exact alike
  exact fun depth => (alike depth).behind

/-- The depths of the stack at the steps of a run, `fuel` of them at most. -/
def depthsWithin (table : Table) : Nat → State → Heap → List Nat
  | 0, _, _ => []
  | fuel + 1, s, h =>
      match s.control with
      | .halted _ => []
      | _ => s.stack.depth ::
          match step table s h with
          | .ok s' h' => depthsWithin table fuel s' h'
          | .error _ _ => []

theorem depthsWithin_halted {table : Table} (hv : s.control = .halted v) :
    depthsWithin table fuel s h = [] := by
  cases fuel with
  | zero => rfl
  | succ fuel => simp only [depthsWithin, hv]

theorem depthsWithin_running {table : Table} (running : s.Running) :
    depthsWithin table (fuel + 1) s h = s.stack.depth ::
      match step table s h with
      | .ok s' h' => depthsWithin table fuel s' h'
      | .error _ _ => [] := by
  rw [depthsWithin]
  split
  · exact absurd ‹_› (running _)
  · rfl

theorem depthsWithin_relocate (rooted : h.Rooted) :
    depthsWithin .standard fuel (s.relocate site) (site.behind h) =
      depthsWithin .standard fuel s h := by
  induction fuel generalizing s h with
  | zero => rfl
  | succ fuel ih =>
      rcases s.halted_or_running with ⟨v, hv⟩ | running
      · rw [depthsWithin_halted hv, depthsWithin_halted (State.control_relocate hv)]
      · obtain ⟨same, rooted'⟩ := @relocates_step site s h rooted
        rw [depthsWithin_running running, depthsWithin_running running.relocate, same]
        cases hs : step .standard s h with
        | ok s' h' =>
            rw [hs] at rooted'
            exact congrArg _ (ih rooted')
        | error e h' => rfl

/-- A program goes through the same depths on any heap. -/
theorem depthsWithin_site (e : Expr) (base : Heap) :
    depthsWithin .standard fuel (.initial e base.newRoot.1) base.newRoot.2 =
      depthsWithin .standard fuel (.initial e ({} : Heap).newRoot.1) ({} : Heap).newRoot.2 := by
  have start : State.initial e base.newRoot.1 =
      (State.initial e ({} : Heap).newRoot.1).relocate base.site := rfl
  have front : base.newRoot.2 = base.site.behind ({} : Heap).newRoot.2 :=
    (@Heap.behind_newRoot base.site).symm
  rw [start, front, depthsWithin_relocate Heap.rooted_newRoot]

theorem depthsWithin_matches (hs : s.Matches .names w s') (agree : w.Agree .names) :
    depthsWithin .standard fuel s w.left = depthsWithin .standard fuel s' w.right := by
  induction fuel generalizing s s' w with
  | zero => rfl
  | succ fuel ih =>
      rcases s.halted_or_running with ⟨v, hv⟩ | running
      · obtain ⟨v', hv', -⟩ := hs.halted_right hv
        rw [depthsWithin_halted hv, depthsWithin_halted hv']
      · have both := parallel_step hs nofun agree
        rw [depthsWithin_running running, depthsWithin_running (hs.running running), hs.depth_eq]
        generalize step .standard s w.left = left at both
        generalize step .standard s' w.right = right at both
        cases both with
        | ok w' _ agree' hs' => exact congrArg _ (ih hs' agree')
        | error => rfl

theorem runWith_matches_of_halted {seen : Stats} (hs : s.Matches .names w s')
    (agree : w.Agree .names) (hv : s.control = .halted v) :
    Option.Rel (fun run run' => run.1 = run'.1 ∧ Alike run.2 run'.2)
      (runWith .standard (fun s _ => Stats.count s.stack.depth) fuel seen s w.left)
      (runWith .standard (fun s _ => Stats.count s.stack.depth) fuel seen s' w.right) := by
  obtain ⟨v', hv', matching⟩ := hs.halted_right hv
  rw [runWith_halted hv, runWith_halted hv']
  exact .some ⟨rfl, .of_matches agree matching⟩

theorem runWith_matches {seen : Stats} (hs : s.Matches .names w s') (agree : w.Agree .names) :
    Option.Rel (fun run run' => run.1 = run'.1 ∧ Alike run.2 run'.2)
      (runWith .standard (fun s _ => Stats.count s.stack.depth) fuel seen s w.left)
      (runWith .standard (fun s _ => Stats.count s.stack.depth) fuel seen s' w.right) := by
  induction fuel generalizing seen s s' w with
  | zero =>
      rcases s.halted_or_running with ⟨v, hv⟩ | running
      · exact runWith_matches_of_halted hs agree hv
      · rw [runWith_no_fuel running, runWith_no_fuel (hs.running running)]
        exact .none
  | succ fuel ih =>
      rcases s.halted_or_running with ⟨v, hv⟩ | running
      · exact runWith_matches_of_halted hs agree hv
      · have both := parallel_step hs nofun agree
        rw [runWith_running running, runWith_running (hs.running running), hs.depth_eq]
        generalize step .standard s w.left = left at both
        generalize step .standard s' w.right = right at both
        cases both with
        | ok w' _ agree' hs' => exact ih hs' agree'
        | error _ _ alike => exact .some ⟨rfl, alike⟩

/-- Programs that differ in the names they bind make their steps at the same depths, as
far as one follows them, and answer with the same statistics and alike endings, or
neither answers. -/
theorem renamed_runs_alike (same : e.AlphaEquiv e') (h : Heap) (fuel : Nat) :
    depthsWithin .standard fuel (.initial e h.newRoot.1) h.newRoot.2 =
        depthsWithin .standard fuel (.initial e' h.newRoot.1) h.newRoot.2 ∧
      Option.Rel (fun run run' => run.1 = run'.1 ∧ Alike run.2 run'.2)
        (evaluate .standard fuel e h) (evaluate .standard fuel e' h) := by
  refine ⟨?_, ?_⟩
  · rw [depthsWithin_site e, depthsWithin_site e']
    exact depthsWithin_matches (matches_initial same) (Sides.start_agree _)
  · have alone : Option.Rel _ (evaluate .standard fuel e {}) (evaluate .standard fuel e' {}) :=
      runWith_matches (matches_initial same) (Sides.start_agree _)
    rw [evaluate_relocate e h, evaluate_relocate e' h]
    generalize evaluate .standard fuel e {} = left at alone ⊢
    generalize evaluate .standard fuel e' {} = right at alone ⊢
    cases alone with
    | none => exact .none
    | some both => exact .some ⟨both.1, both.2.moved⟩

/-- A procedure inside another one that returns the argument of the outer one. -/
def constantly (x y : Name) : Expr :=
  .app (.lambda [x] (.lambda [y] (.ref x))) [.datum (.integer 1)]

/-- The two names change places, though each is in scope of the other. -/
theorem renamed_runs_alike_constantly :
    (constantly "x" "y").AlphaEquiv (constantly "y" "x") ∧
      (evaluate .standard 7 (constantly "x" "y") {}).isSome ∧
      depthsWithin .standard 7 (.initial (constantly "x" "y") ({} : Heap).newRoot.1)
          ({} : Heap).newRoot.2 =
        depthsWithin .standard 7 (.initial (constantly "y" "x") ({} : Heap).newRoot.1)
          ({} : Heap).newRoot.2 ∧
      Option.Rel (fun run run' => run.1 = run'.1 ∧ Alike run.2 run'.2)
        (evaluate .standard 7 (constantly "x" "y") {})
        (evaluate .standard 7 (constantly "y" "x") {}) := by
  have binders (x y : Name) : Change.Binders .names [x] [y] :=
    ⟨rfl, List.nodup_singleton x, List.nodup_singleton y⟩
  have occurrence : SameVariable [["y"], ["x"], []] [["x"], ["y"], []] "x" "y" :=
    .outer (by decide) (by decide) (.here List.mem_cons_self)
  have procedure : Expr.Matches .names [[]] [[]] (.lambda ["x"] (.lambda ["y"] (.ref "x")))
      (.lambda ["y"] (.lambda ["x"] (.ref "y"))) :=
    .lambda (binders "x" "y") (.lambda (binders "y" "x") (.ref occurrence))
  have same : (constantly "x" "y").AlphaEquiv (constantly "y" "x") := by
    refine .app procedure rfl fun mem => ?_
    cases List.mem_singleton.mp mem
    exact .datum _
  exact ⟨same, rfl, renamed_runs_alike same {} 7⟩

end Machine

end CoreLisp
