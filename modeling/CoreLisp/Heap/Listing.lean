import CoreLisp.Heap.Basic
import CoreLisp.Primitive.Basic
import CoreLisp.Text.Quoted

/-!
# Listings

An environment is listed as the names of its frames, innermost first and the
empty root last; values are left out, since a procedure may be stored in the
very frame it was made in. A table of primitives is listed with the number of
arguments of each.
-/
namespace CoreLisp

def Heap.scopesText (h : Heap) (env : Env) : String :=
  Text.bracketed ((h.scopes env).map fun names => Text.bracketed (names.map Text.quoted))

def Table.text (t : Table) : String :=
  "\x7b" ++
    ", ".intercalate (t.entries.map fun (name, p) => Text.quoted name ++ ": " ++ p.arity.repr) ++
    "\x7d"

end CoreLisp
