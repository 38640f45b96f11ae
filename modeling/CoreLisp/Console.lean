import CoreLisp.Repl

/-!
# The interactive loop on the console

The outermost layer of the loop: it shows a prompt, waits for a line, and shows
the reply. An empty answer from the console means that the input has ended.
-/
namespace CoreLisp.Repl

partial def interact (fuel : Nat) (s : Session) (h : Heap) : IO Unit := do
  let stdout ← IO.getStdout
  stdout.putStr prompt
  stdout.flush
  match Text.lines (← (← IO.getStdin).getLine) with
  | [] => return
  | line :: _ =>
    match respond fuel s h line with
    | some (reply, s, h) =>
        stdout.putStr reply
        interact fuel s h
    | none => return

end CoreLisp.Repl
