import CoreLisp.Command.Run

/-!
# The program

The outermost layer of the command: it reads the input that the arguments ask
for, hands it to `Command.execute`, and writes the report.
-/
namespace CoreLisp.Command

/-- More steps than a machine can make in a lifetime. -/
def lifetime : Nat := 0x4000000000000000

/-- The complaint that an error number of the system stands for. Some layers
give the number with its sign turned. -/
def systemError (code : UInt32) (details : String) : ReadError :=
  let number := if code.toNat < 0x80000000 then code.toNat else 0x100000000 - code.toNat
  match [ReadError.notFound, .notADirectory, .isADirectory, .nameTooLong].find? fun
      | .system _ known => known == number
      | .invalidText => false with
  | some known => known
  | none => .system details number

/-- What the system said when a file could not be read. -/
def readError : IO.Error → ReadError
  | .noFileOrDirectory _ code details | .inappropriateType _ code details
  | .permissionDenied _ code details | .invalidArgument _ code details
  | .resourceExhausted _ code details | .otherError code details => systemError code details
  | e => .system (toString e) 0

def decodeResult : Except IO.Error ByteArray → Except ReadError String
  | .ok bytes => decode bytes
  | .error e => .error (readError e)

/-- Reads the file or the standard input that the arguments ask for, if any. -/
def readInput (args : List String) : IO (Except ReadError String) := do
  match parse args with
  | .ok (.run options) =>
    match options.input with
    | .inline source => return .ok source
    | .file path => return decodeResult (← (IO.FS.readBinFile path).toBaseIO)
    | .stdin => return decodeResult (← ((← IO.getStdin).readBinToEnd).toBaseIO)
  | _ => return .ok ""

end CoreLisp.Command

open CoreLisp.Command in
def main (args : List String) : IO UInt32 := do
  let text ← readInput args
  match execute lifetime args (fun _ => text) text with
  | some report =>
      (← IO.getStdout).putStr report.stdout
      (← IO.getStderr).putStr report.stderr
      return report.code.toUInt32
  | none => return 1
