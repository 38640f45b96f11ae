import CoreLisp.Proofs.Machine.Own

/-!
# Programs from source text are never malformed

The machine reports a malformed program where the lists of a construct do not
fit together, where names bound together are not different, and where the stack
has run out. The builder has asked all this of the whole program before, and a
procedure that is called has its text from the program. So none of these reports
is made.
-/
namespace CoreLisp.Machine

variable {table : Table} {m : Mark} {s : State} {h h' : Heap} {cause : Malformation}

/-- A step from a shaped state with well-formed expressions says that the program
is malformed only if a primitive says so. -/
theorem Failure.not_malformed (fail : Failure table s h (.malformed cause) h') (shaped : s.Shaped)
    (own : s.Own Expr.Regular m) :
    ∃ name args, table.apply name args h = .error (.malformed cause) h' := by
  generalize he : EvalError.malformed cause = err at fail
  have code := own.control
  -- first the failures with other causes, then those that the builder has ruled out
  cases fail with
  | ref hx =>
      obtain ⟨-, -, rfl⟩ := Env.lookup_eq_error_iff.mp hx
      cases he
  | assigned hx =>
      obtain ⟨-, -, rfl⟩ := Env.assign_eq_error_iff.mp hx
      cases he
  | letRecDone _ hx =>
      obtain ⟨x, rfl⟩ := Env.assignAll_error hx
      cases he
  | primNone hx | primDone _ hx =>
      subst he
      exact ⟨_, _, hx⟩
  | seqEmpty =>
      have many := code.self
      exact absurd many (by simp [Expr.Regular])
  | letLengths hlen =>
      have regular := code.self
      exact absurd regular.1 hlen
  | letRecLengths hlen =>
      have regular := code.self
      exact absurd regular.1 hlen
  | letRecEmpty =>
      have regular := code.self
      exact absurd rfl regular.2.2
  | letRecFirst hlen hx =>
      obtain ⟨-, hdistinct, -⟩ := code.self
      obtain ⟨-, ⟨hlengths, -⟩ | ⟨-, hdup, -⟩⟩ := Env.extend_eq_error_iff.mp hx
      · exact absurd (List.length_map _).symm hlengths
      · exact absurd hdistinct hdup
  | exhausted => exact absurd rfl (Stack.Shaped.ne_empty shaped)
  | letDone hlast hx =>
      obtain ⟨hk, -⟩ := own.below
      obtain ⟨hlen, hdistinct⟩ := (hk.code _ List.mem_cons_self).self
      obtain ⟨⟨-, hlt⟩, -⟩ := Stack.Shaped.below shaped rfl
      -- with the last value there are as many values as initializers, and so as names
      have hle := List.getElem?_eq_none_iff.mp hlast
      obtain ⟨-, ⟨hlengths, -⟩ | ⟨-, hdup, -⟩⟩ := Env.extend_eq_error_iff.mp hx
      · simp only [List.length_append, List.length_singleton] at hlengths
        omega
      · exact absurd hdistinct hdup
  | callNone hx =>
      obtain ⟨n, k, rfl⟩ | ⟨d, rfl⟩ | ⟨f, rfl, hdup, -⟩ := applyProcedure_error hx
      · cases he
      · cases he
      · have hdistinct := code.2.self
        exact absurd hdistinct hdup
  | call _ hx =>
      obtain ⟨hk, -⟩ := own.below
      obtain ⟨n, k, rfl⟩ | ⟨d, rfl⟩ | ⟨f, rfl, hdup, -⟩ := applyProcedure_error hx
      · cases he
      · cases he
      · have hrator := hk.values _ List.mem_cons_self
        exact absurd hrator.2.self hdup

theorem apply_standard_not_malformed (name : Name) (args : List Value) :
    Table.standard.apply name args h ≠ .error (.malformed cause) h' := by
  intro fail
  obtain ⟨-, he | ⟨b, refusal⟩⟩ := Table.apply_standard_error fail
  · cases he
  · cases refusal

/-- A program that parses never fails as malformed, on any heap and in any number of
steps: no step from a state of its run does, and so no run ends in this way. -/
theorem parsed_never_malformed (source : String) (e : Expr) (parsed : Expr.parse source = .ok e)
    (h : Heap) :
    (∀ s h₁, Reachable .standard e h s h₁ → ∀ cause h₂,
      step .standard s h₁ ≠ .error (.malformed cause) h₂) ∧
    ∀ fuel stats cause h', evaluate .standard fuel e h ≠
      some (stats, .error (.malformed cause) h') := by
  have never : ∀ s h₁, Reachable .standard e h s h₁ → ∀ cause h₂,
      step .standard s h₁ ≠ .error (.malformed cause) h₂ := by
    intro s h₁ reached cause h₂ fail
    have keeps := Table.standard_keeps Expr.Regular h.mark
    have own := (reached.own keeps (Expr.wellFormed_of_parse parsed)).1
    obtain ⟨name, args, refused⟩ := (step_eq_error_iff.mp fail).not_malformed reached.shaped own
    exact apply_standard_not_malformed name args refused
  refine ⟨never, ?_⟩
  intro fuel stats cause h' run
  obtain ⟨n, -, ending⟩ := evaluate_eq_some_iff.mp ⟨stats, run⟩
  obtain ⟨k, s, h₁, steps, fail⟩ := ending.failing_step
  exact never s h₁ ⟨k, steps⟩ cause h' fail

/-- A procedure that calls itself for ever, each time with a new box. -/
theorem parsed_never_malformed_loop :
    Expr.parse "(#%letrec ([f (#%lambda (x) (#%app f (#%primapp box x)))]) (#%app f f))" =
      .ok (.letRec ["f"] [.lambda ["x"] (.app (.ref "f") [.primApp "box" [.ref "x"]])]
        (.app (.ref "f") [.ref "f"])) ∧
    ∀ fuel stats cause h', evaluate .standard fuel
      (.letRec ["f"] [.lambda ["x"] (.app (.ref "f") [.primApp "box" [.ref "x"]])]
        (.app (.ref "f") [.ref "f"])) {} ≠ some (stats, .error (.malformed cause) h') := by
  have parsed : Expr.parse
      "(#%letrec ([f (#%lambda (x) (#%app f (#%primapp box x)))]) (#%app f f))" =
        .ok (.letRec ["f"] [.lambda ["x"] (.app (.ref "f") [.primApp "box" [.ref "x"]])]
          (.app (.ref "f") [.ref "f"])) := rfl
  exact ⟨parsed, (parsed_never_malformed _ _ parsed {}).2⟩

end CoreLisp.Machine
