import CoreLisp.Command.Run
import CoreLisp.Console
import CoreLisp.Heap.Listing
import CoreLisp.Main
import CoreLisp.Primitive.Custom
import CoreLisp.Proofs.Evaluation.Refinement
import CoreLisp.Proofs.Form.Brackets
import CoreLisp.Proofs.Form.Layout
import CoreLisp.Proofs.Form.Grammar
import CoreLisp.Proofs.Form.RoundTrip
import CoreLisp.Proofs.Machine.Malformed
import CoreLisp.Proofs.Machine.Undefined
import CoreLisp.Proofs.Machine.TailCalls
import CoreLisp.Proofs.Machine.Log
import CoreLisp.Proofs.Machine.CallFree
import CoreLisp.Proofs.Machine.Range
import CoreLisp.Proofs.Machine.Failing
import CoreLisp.Proofs.Command.Flags
import CoreLisp.Proofs.Machine.Renaming
import CoreLisp.Proofs.Machine.LetCalls
import CoreLisp.Proofs.Machine.Operators
import CoreLisp.Proofs.Heap.History
import CoreLisp.Proofs.Session.Aliasing
import CoreLisp.Proofs.Session.Isolation
import CoreLisp.Proofs.Token.Longest
import CoreLisp.Proofs.Token.Tiling
import CoreLisp.Proofs.Token.Lines
import CoreLisp.Proofs.Form.Written
import CoreLisp.Proofs.Expr.Render
import CoreLisp.Proofs.Evaluation.Cost
import CoreLisp.Proofs.Session.Sequence
import CoreLisp.Proofs.Machine.Below
import CoreLisp.Proofs.Session.Hosts
import CoreLisp.Proofs.Form.Literals
import CoreLisp.Proofs.Primitive.Registry
