import CoreLisp.Command.Options
import CoreLisp.Command.Workspace
import CoreLisp.Outcome

/-!
# The command

The command evaluates one program and reports. A value goes to standard output.
An error goes to standard error together with its cause, and the exit code is 1.
With `--json` the outcome goes to standard output in either case, and an error
shows only in it and in the exit code. With `--stats` the statistics come first
on standard error.
-/
namespace CoreLisp.Command

def usage : String :=
  "Usage: vulcan [options] [<input file>]

Reads a program from <input file>, or from stdin when none is given.

Options:
  -h, --help: Print this help message
  -e <source>: Evaluate <source> instead of reading a file
  --json: Print the outcome as \x7b\"ok\": ..., \"output\" | \"type\", \"message\"\x7d
  --stats: Print machine statistics to stderr after evaluating"

/-- What a finished command leaves behind. -/
structure Report where
  code : Nat
  stdout : String
  stderr : String
deriving DecidableEq, Repr

/-- Where the program text is to be taken from. -/
inductive Input where
  | inline (source : String)
  | file (path : String)
  | stdin
deriving DecidableEq, Repr

def Options.input (o : Options) : Input :=
  match o.source, o.file with
  | some source, _ => .inline source
  | none, some path => .file path
  | none, none => .stdin

/-- How complaints name the input. -/
def Input.name : Input → String
  | inline _ => "source"
  | file path => path
  | stdin => "stdin"

/-- A complaint, with what caused it where that is known. -/
def complaint (message : String) (cause : Option String) : String :=
  "Error: " ++ message ++ "\n" ++
    match cause with
    | some cause => "\nCaused by:\n    " ++ cause ++ "\n"
    | none => ""

namespace Report

def failure (message : String) (cause : Option String) : Report :=
  ⟨1, "", complaint message cause⟩

/-- The report on an evaluation, in the manner that the options ask for. -/
def ofAnswer (o : Options) (a : Answer Error) : Report :=
  let statistics := if o.stats then a.session.lastRun.json ++ "\n" else ""
  if o.json then
    ⟨if a.result.isOk then 0 else 1, Outcome.json a.result ++ "\n", statistics⟩
  else
    match a.result with
    | .ok v => ⟨0, v.text ++ "\n", statistics⟩
    | .error e => ⟨1, "", statistics ++ complaint e.message (some e.cause)⟩

end Report

/-- Runs the command on a program text, or on the reason why there is none. -/
def runOn (fuel : Nat) (o : Options) (text : Except ReadError String) : Option Report :=
  match text with
  | .error e => some (.failure ("failed to read " ++ o.input.name) (some e.message))
  | .ok source => ((({} : Session).evaluateText fuel source {}).map (Report.ofAnswer o))

/-- Runs the command, given what the files and standard input hold. -/
def execute (fuel : Nat) (args : List String) (readFile : String → Except ReadError String)
    (stdin : Except ReadError String) : Option Report :=
  match parse args with
  | .error e => some (.failure e.message none)
  | .ok .help => some ⟨0, usage ++ "\n", ""⟩
  | .ok (.run o) =>
    match o.input with
    | .inline source => runOn fuel o (.ok source)
    | .file path => runOn fuel o (readFile path)
    | .stdin => runOn fuel o stdin

end CoreLisp.Command
