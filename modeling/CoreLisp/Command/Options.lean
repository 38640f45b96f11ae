import CoreLisp.Text.Quoted

/-!
# The arguments of the command

A request for help is granted wherever it stands, even in place of a value. The
flags are then taken out wherever they are, each at its first occurrence, and
after them the option for inline source together with the argument behind it.
The first argument that is left names the input file, whatever it looks like.
Nothing else may be left.
-/
namespace CoreLisp.Command

structure Options where
  json : Bool
  stats : Bool
  source : Option String
  file : Option String
deriving DecidableEq, Repr

inductive UsageError where
  | missingValue (option : String)
  | unexpectedArguments (args : List String)
  | sourceAndFile
deriving DecidableEq, Repr

def UsageError.message : UsageError → String
  | missingValue option => "the '" ++ option ++ "' option doesn't have an associated value"
  | unexpectedArguments args =>
      "unexpected arguments: " ++ Text.bracketed (args.map Text.quoted)
  | sourceAndFile => "`-e` and an input file cannot be combined"

/-- What the arguments ask for. -/
inductive Request where
  | help
  | run (options : Options)
deriving DecidableEq, Repr

/-- Whether a flag is given, and the arguments without its first occurrence. -/
def takeFlag (flag : String) (args : List String) : Bool × List String :=
  (args.contains flag, args.erase flag)

/-- The argument behind the first occurrence of an option, and the arguments
without the two. -/
def takeValue (option : String) : List String → Except UsageError (Option String × List String)
  | [] => .ok (none, [])
  | arg :: args =>
    if arg = option then
      match args with
      | [] => .error (.missingValue option)
      | value :: rest => .ok (some value, rest)
    else do
      let (value, rest) ← takeValue option args
      return (value, arg :: rest)

def parse (args : List String) : Except UsageError Request :=
  if args.contains "-h" || args.contains "--help" then .ok .help
  else do
    let (json, args) := takeFlag "--json" args
    let (stats, args) := takeFlag "--stats" args
    let (source, args) ← takeValue "-e" args
    match source, args with
    | _, _ :: excess@(_ :: _) => .error (.unexpectedArguments excess)
    | some _, [_] => .error .sourceAndFile
    | none, [file] => .ok (.run ⟨json, stats, none, some file⟩)
    | source, [] => .ok (.run ⟨json, stats, source, none⟩)

end CoreLisp.Command
