import TwinLisp.Expr.Basic
import TwinLisp.Names.Qualified
/-!
Where an expression stands: the names around it and whether it may `recur`. There is a scope for
each frame that will surround the expression when it is evaluated.

* `Scopes.find?`: the innermost, latest binding of a name.
* `Position`: whether the value of the expression is that of the body around it, and the number of
  values the target of `recur` takes.
-/

namespace TwinLisp

/-- The names of each frame, the innermost frame and the latest name first. -/
abbrev Scopes := List (List String)

namespace Scopes

/-- The index of the latest slot of a name. -/
def slot? (name : String) : List String → Option Nat
  | [] => none
  | n :: earlier => if n == name then some earlier.length else slot? name earlier

def find? (name : String) : Scopes → Option Binding
  | [] => none
  | names :: outer =>
    match slot? name names with
    | some index => some ⟨name, outer.length, index⟩
    | none => find? name outer

def declare (name : String) : Scopes → Scopes
  | [] => []
  | names :: outer => (name :: names) :: outer

/-- The scope of a call: the function itself, then its parameters. -/
def enterCall (self : String) (params : List String) (s : Scopes) : Scopes :=
  (self :: params).reverse :: s

end Scopes

structure Position where
  tail : Bool
  recurArity : Option Nat
  deriving DecidableEq, Repr

namespace Position

/-- A whole form; `recur` has no target. -/
def top : Position := ⟨false, none⟩

/-- The body of a loop or function. -/
def body (arity : Nat) : Position := ⟨true, some arity⟩

def nonTail (p : Position) : Position := ⟨false, p.recurArity⟩

end Position

end TwinLisp
