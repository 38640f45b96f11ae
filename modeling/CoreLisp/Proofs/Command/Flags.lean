import CoreLisp.Command.Run
import CoreLisp.Proofs.Json.Outcome

/-!
# Flags may stand anywhere

The flags are taken out of the arguments before anything else is read from them. So a
flag can stand at any place, even between an option and its value, and the rest is read
as if it were not there. What is evaluated does not depend on the flags, and they decide
only how it is reported.
-/
namespace CoreLisp.Command

variable {given json stats : Bool} {flag other : String} {args args' : List String} {fuel : Nat}
  {o : Options}

/-- The arguments with a flag put in at some place, if it is given. -/
def Adds (given : Bool) (flag : String) (args args' : List String) : Prop :=
  ∃ before after, args = before ++ after ∧
    args' = before ++ (if given then [flag] else []) ++ after

/-- The same options but for the flags. -/
def Options.set (json stats : Bool) (o : Options) : Options := { o with json, stats }

def Request.set (json stats : Bool) : Request → Request
  | .help => .help
  | .run o => .run (o.set json stats)

/-- The program text that the options ask for, or the reason why there is none. -/
def Options.text (o : Options) (readFile : String → Except ReadError String)
    (stdin : Except ReadError String) : Except ReadError String :=
  match o.input with
  | .inline source => .ok source
  | .file path => readFile path
  | .stdin => stdin

/-- The report gives an outcome on one line, which tells of success if the exit code does. -/
structure Report.Tells (r : Report) (result : Except Error Value) : Prop where
  stdout : r.stdout = Outcome.json result ++ "\n"
  line : '\n' ∉ (Outcome.json result).toList
  ok : ∃ rest, Json.decode (Outcome.json result) =
    some (.object (("ok", .boolean (r.code = 0)) :: rest))

namespace Adds

theorem mem_iff (adds : Adds given flag args args') (ne : other ≠ flag) :
    other ∈ args' ↔ other ∈ args := by
  obtain ⟨before, after, rfl, rfl⟩ := adds
  cases given <;> simp [ne]

theorem erase (adds : Adds given flag args args') (ne : other ≠ flag) :
    Adds given flag (args.erase other) (args'.erase other) := by
  obtain ⟨before, after, rfl, rfl⟩ := adds
  have outside : other ∉ (if given then [flag] else []) := by cases given <;> simp [ne]
  by_cases mem : other ∈ before
  · refine ⟨before.erase other, after, List.erase_append_left _ mem, ?_⟩
    rw [List.append_assoc, List.erase_append_left _ mem, List.append_assoc]
  · refine ⟨before, after.erase other, List.erase_append_right _ mem, ?_⟩
    rw [List.append_assoc, List.erase_append_right _ mem, List.erase_append_right _ outside,
      List.append_assoc]

/-- Taking the flag out again gives the arguments without it. -/
theorem takeFlag_eq (adds : Adds given flag args args') (free : flag ∉ args) :
    takeFlag flag args' = (given, args) := by
  obtain ⟨before, after, rfl, rfl⟩ := adds
  obtain ⟨hbefore, hafter⟩ := not_or.mp (mt List.mem_append.mpr free)
  cases given with
  | true => simp [takeFlag, List.erase_append_right _ hbefore]
  | false => simp [takeFlag, hbefore, hafter, List.erase_of_not_mem]

end Adds

/-- No flag and no request for help is among the arguments. -/
def Plain (args : List String) : Prop :=
  ∀ flag ∈ ["-h", "--help", "--json", "--stats"], flag ∉ args

instance (args : List String) : Decidable (Plain args) :=
  inferInstanceAs (Decidable (∀ flag ∈ ["-h", "--help", "--json", "--stats"], flag ∉ args))

theorem Plain.takeFlag_eq (plain : Plain args)
    (mem : flag ∈ ["-h", "--help", "--json", "--stats"]) : takeFlag flag args = (false, args) := by
  simp [takeFlag, plain flag mem, List.erase_of_not_mem]

/-- The options are those of the arguments without the flags, with the flags set. -/
theorem parse_of_takeFlag {between : List String} (plain : Plain args)
    (help : "-h" ∉ args' ∧ "--help" ∉ args')
    (first : takeFlag "--json" args' = (json, between))
    (second : takeFlag "--stats" between = (stats, args)) :
    parse args' = (parse args).map (Request.set json stats) := by
  have short : "-h" ∉ args := plain _ (by decide)
  have long : "--help" ∉ args := plain _ (by decide)
  have noJson : takeFlag "--json" args = (false, args) := plain.takeFlag_eq (by decide)
  have noStats : takeFlag "--stats" args = (false, args) := plain.takeFlag_eq (by decide)
  simp only [parse, List.contains_eq_mem, help, short, long, first, second, noJson, noStats]
  cases takeValue "-e" args with
  | error e => rfl
  | ok taken =>
      obtain ⟨source, rest⟩ := taken
      cases source <;> rcases rest with _ | ⟨file, _ | _⟩ <;> rfl

theorem Adds.none (flag : String) (args : List String) : Adds false flag args args :=
  ⟨args, [], by simp, by simp⟩

theorem parse_of_adds {between : List String} (plain : Plain args)
    (first : Adds json "--json" args between) (second : Adds stats "--stats" between args') :
    parse args' = (parse args).map (Request.set json stats) := by
  have help : ∀ x, x ≠ "--json" → x ≠ "--stats" → x ∉ args → x ∉ args' :=
    fun x hjson hstats free => mt ((second.mem_iff hstats).trans (first.mem_iff hjson)).mp free
  have json_taken := first.takeFlag_eq (plain _ (by decide))
  rw [takeFlag, Prod.mk.injEq] at json_taken
  have rest : Adds stats "--stats" args (args'.erase "--json") :=
    json_taken.2 ▸ second.erase (by decide)
  refine parse_of_takeFlag plain ⟨?_, ?_⟩ ?_ (rest.takeFlag_eq (plain _ (by decide)))
  · exact help "-h" (by decide) (by decide) (plain _ (by decide))
  · exact help "--help" (by decide) (by decide) (plain _ (by decide))
  · -- whether the flag is among the arguments does not depend on the other flag
    have same : args'.contains "--json" = between.contains "--json" := by
      rw [Bool.eq_iff_iff, List.contains_iff_mem, List.contains_iff_mem]
      exact second.mem_iff (by decide)
    rw [takeFlag, same, json_taken.1]

section Reports
variable (readFile : String → Except ReadError String) (stdin : Except ReadError String)

theorem execute_run (parsed : parse args = .ok (.run o)) :
    execute fuel args readFile stdin = runOn fuel o (o.text readFile stdin) := by
  simp only [execute, parsed, Options.text]
  cases o.input <;> rfl

/-- Two commands give the same answer to a question, if they ask for the same but for the
flags, and these make no difference to the answer. -/
theorem execute_congr {β : Type} {json' stats' : Bool} {base : List String} (f : Report → β)
    (first : parse args = (parse base).map (Request.set json stats))
    (second : parse args' = (parse base).map (Request.set json' stats'))
    (same : ∀ (o : Options) (text : Except ReadError String),
      (runOn fuel (o.set json stats) text).map f = (runOn fuel (o.set json' stats') text).map f) :
    (execute fuel args readFile stdin).map f = (execute fuel args' readFile stdin).map f := by
  cases parsed : parse base with
  | error e =>
      rw [parsed] at first second
      simp only [execute, first, second, Except.map]
  | ok request =>
      rw [parsed] at first second
      cases request with
      | help => simp only [execute, first, second, Except.map, Request.set]
      | run o =>
          rw [execute_run readFile stdin first, execute_run readFile stdin second]
          exact same o _

end Reports

theorem code_ofAnswer (o : Options) (a : Answer Error) :
    (Report.ofAnswer o a).code = if a.result.isOk then 0 else 1 := by
  unfold Report.ofAnswer
  cases o.json <;> cases a.result <;> rfl

theorem code_runOn (fuel : Nat) (o : Options) (text : Except ReadError String) :
    (runOn fuel (o.set json stats) text).map (·.code) = (runOn fuel o text).map (·.code) := by
  cases text with
  | error e => rfl
  | ok source =>
      simp only [runOn, Option.map_map, Function.comp_def, code_ofAnswer]

/-- The statistics are written to standard error. -/
theorem stdout_runOn (fuel : Nat) (o : Options) (text : Except ReadError String) :
    (runOn fuel (o.set json stats) text).map (·.stdout) =
      (runOn fuel (o.set json false) text).map (·.stdout) := by
  cases text with
  | error e => rfl
  | ok source =>
      have same : ∀ a : Answer Error, (Report.ofAnswer (o.set json stats) a).stdout =
          (Report.ofAnswer (o.set json false) a).stdout := by
        intro a
        unfold Report.ofAnswer Options.set
        cases json <;> cases a.result <;> rfl
      simp only [runOn, Option.map_map, Function.comp_def, same]

theorem tells_ofAnswer (hjson : o.json = true) (a : Answer Error) :
    (Report.ofAnswer o a).Tells a.result := by
  have code := code_ofAnswer o a
  refine ⟨?_, Outcome.newline_not_mem_json a.result, ?_⟩
  · simp [Report.ofAnswer, hjson]
  · rw [Outcome.decode_json, code]
    cases a.result with
    | ok v => exact ⟨_, rfl⟩
    | error e => exact ⟨_, rfl⟩

/-- The flags for the JSON outcome and for the statistics may be put anywhere among
arguments that have no flags, also between the option for a source and the source. The
options are then the same with these flags set, or there is the same fault in them. The
exit code is the same as without the flags, and the flag for the statistics does not change
what is written to standard output. With the flag for the outcome this is the outcome of
the program on one line, which tells of success just when the exit code does, whenever the
text of the program could be obtained and its evaluation ends. -/
theorem flags_stand_anywhere {args between args' : List String} (plain : Plain args)
    (first : Adds json "--json" args between) (second : Adds stats "--stats" between args')
    (fuel : Nat) (readFile : String → Except ReadError String) (stdin : Except ReadError String) :
    parse args' = (parse args).map (Request.set json stats) ∧
    (execute fuel args' readFile stdin).map (·.code) =
      (execute fuel args readFile stdin).map (·.code) ∧
    (execute fuel args' readFile stdin).map (·.stdout) =
      (execute fuel between readFile stdin).map (·.stdout) ∧
    (json = true → ∀ o source a, parse args = .ok (.run o) →
      o.text readFile stdin = .ok source → ({} : Session).evaluateText fuel source {} = some a →
        ∃ report, execute fuel args' readFile stdin = some report ∧ report.Tells a.result) := by
  have parsed := parse_of_adds plain first second
  refine ⟨parsed, ?_, ?_, ?_⟩
  · have alone := parse_of_adds plain (.none "--json" args) (.none "--stats" args)
    refine execute_congr readFile stdin _ parsed alone fun o text => ?_
    rw [code_runOn, code_runOn]
  · have without := parse_of_adds plain first (.none "--stats" between)
    exact execute_congr readFile stdin _ parsed without fun o text => stdout_runOn fuel o text
  · rintro rfl o source a request text run
    rw [request] at parsed
    have same : (o.set true stats).text readFile stdin = .ok source := text
    have given : (o.set true stats).json = true := rfl
    refine ⟨_, ?_, tells_ofAnswer given a⟩
    rw [execute_run readFile stdin parsed, same, runOn, run, Option.map_some]

/-- Both flags stand between the option and the source of a program that fails. -/
theorem flags_stand_anywhere_between :
    Plain ["-e", "(#%primapp add1 (#%datum #t))"] ∧
    parse ["-e", "--stats", "--json", "(#%primapp add1 (#%datum #t))"] =
      .ok (.run ⟨true, true, some "(#%primapp add1 (#%datum #t))", none⟩) ∧
    (execute 3 ["-e", "--stats", "--json", "(#%primapp add1 (#%datum #t))"]
      (fun _ => .error .notFound) (.ok "")).map (·.code) = some 1 ∧
    ∃ a report, ({} : Session).evaluateText 3 "(#%primapp add1 (#%datum #t))" {} = some a ∧
      execute 3 ["-e", "--stats", "--json", "(#%primapp add1 (#%datum #t))"]
        (fun _ => .error .notFound) (.ok "") = some report ∧ report.Tells a.result := by
  have plain : Plain ["-e", "(#%primapp add1 (#%datum #t))"] := by decide
  have first : Adds true "--json" ["-e", "(#%primapp add1 (#%datum #t))"] _ :=
    ⟨["-e"], ["(#%primapp add1 (#%datum #t))"], rfl, rfl⟩
  have second : Adds true "--stats" (["-e"] ++ ["--json"] ++ ["(#%primapp add1 (#%datum #t))"]) _ :=
    ⟨["-e"], ["--json", "(#%primapp add1 (#%datum #t))"], rfl, rfl⟩
  obtain ⟨options, code, -, outcome⟩ := flags_stand_anywhere plain first second 3
    (fun _ => .error .notFound) (.ok "")
  obtain ⟨report, executed, tells⟩ := outcome rfl _ _ _ rfl rfl rfl
  exact ⟨plain, options, code, _, report, rfl, executed, tells⟩

end CoreLisp.Command
