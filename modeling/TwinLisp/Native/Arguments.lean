import TwinLisp.Error.Running
import TwinLisp.Value.Equality
/-!
What natives demand of their arguments. A number of arguments that a native does not take is a fault
of arity, an argument of the wrong kind a fault of type.
-/

namespace TwinLisp

/-- The result of a native, or what is wrong with its arguments. -/
abbrev Answer := Except RuntimeFault

namespace Answer

def wrongArity {α : Type} (name : String) (args : List Value) : Answer α :=
  .error (.wrongArity name args.length)

/-- The fault of an argument that is not what the native expects. -/
def expects {α : Type} (name expected : String) (got : Value) : Answer α :=
  .error (.typeError (name ++ " expects " ++ expected ++ ", got " ++ got.typeName))

/-- The elements of an argument that is walked as a sequence. -/
def itemsFor (name : String) (v : Value) : Answer (List Value) :=
  match v.items? with
  | some xs => .ok xs
  | none =>
    .error (.typeError (name ++ ": Don't know how to create ISeq from: " ++ v.typeName))

def intFor (name : String) (v : Value) : Answer Int64 :=
  match v with
  | .int n => .ok n
  | _ => expects name "an integer" v

/-- The element at an index, which may be negative. -/
def at? (xs : List Value) (index : Int64) : Option Value :=
  if index < 0 then none else xs[index.toNatClampNeg]?

def outOfBounds {α : Type} (index : Int64) (length : Nat) : Answer α :=
  .error (.indexOutOfBounds index.toInt length)

/-- A list, or nil if it would be empty. -/
def listOrNil (xs : List Value) : Value := if xs.isEmpty then .nil else .list xs

end Answer

end TwinLisp
