import CoreLisp.Session
import CoreLisp.Text.Lines

/-!
# The interactive loop

Each line of input is a program of its own, and all lines share one session. The
loop writes a prompt before it reads a line, also before it finds that there is
none. A blank line is passed over. After any other line it writes the value or
the error, and the statistics of the session's last run.
-/
namespace CoreLisp.Repl

def prompt : String := "> "

/-- What is written about an answer. -/
def report (a : Answer Error) : String :=
  (match a.result with
    | .ok v => v.text
    | .error e => "Error: " ++ e.message) ++ "\n  (" ++
  a.session.lastRun.steps.repr ++ " steps, peak depth " ++
  a.session.lastRun.peakDepth.repr ++ ")\n"

/-- What is written in reply to one line, and the session and heap after it. -/
def respond (fuel : Nat) (s : Session) (h : Heap) (line : String) :
    Option (String × Session × Heap) :=
  if Text.isBlankLine line then some ("", s, h)
  else do
    let a ← s.evaluateText fuel line h
    return (report a, a.session, a.heap)

/-- All that is written in reply to the lines of a conversation. -/
def transcriptFrom (fuel : Nat) (s : Session) (h : Heap) : List String → Option String
  | [] => some prompt
  | line :: lines => do
      let (reply, s, h) ← respond fuel s h line
      let rest ← transcriptFrom fuel s h lines
      return prompt ++ reply ++ rest

def transcript (fuel : Nat) (input : String) : Option String :=
  transcriptFrom fuel {} {} (Text.lines input)

end CoreLisp.Repl
