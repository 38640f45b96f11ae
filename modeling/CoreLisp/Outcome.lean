import CoreLisp.Session
import CoreLisp.Text.Quoted

/-!
# Outcomes as JSON

The outcome of a program is one JSON object on one line. For a value it holds
`ok` and `output`, where integers and truth values are written as JSON numbers
and truth values and every other value as the string of its printed form. For an
error it holds `ok`, the kind of the error as `type`, and its `message`.
-/
namespace CoreLisp

def Value.json : Value → String
  | .integer n => n.repr
  | .boolean true => "true"
  | .boolean false => "false"
  | v => Text.jsonString v.text

def Stats.json (s : Stats) : String :=
  "\x7b\"steps\":" ++ s.steps.repr ++ ",\"peak_depth\":" ++ s.peakDepth.repr ++ "\x7d"

namespace Outcome

def json : Except Error Value → String
  | .ok v => "\x7b\"ok\":true,\"output\":" ++ v.json ++ "\x7d"
  | .error e =>
      "\x7b\"ok\":false,\"type\":" ++ Text.jsonString e.kind ++ ",\"message\":" ++
        Text.jsonString e.message ++ "\x7d"

end Outcome

end CoreLisp
