import TwinLisp.Native.Arguments
import TwinLisp.Number.Tower
/-!
Natives on numbers. With two arguments they compute what the arithmetic instructions compute.

* `fold`: an operation from left to right.
* `chain`: a comparison of neighbours.
-/

namespace TwinLisp.Answer

/-- An operation from left to right; a lone argument must be a number. -/
def fold (name : String) (op : Value → Value → Answer Value) : List Value → Answer Value
  | [] => wrongArity name []
  | first :: rest =>
    if Number.isNumber first then rest.foldlM op first else .error (Number.notANumber name first)

/-- Whether a comparison holds of all neighbours. -/
def neighbours (op : Value → Value → Answer Value) : List Value → Answer Bool
  | a :: b :: rest =>
    match op a b with
    | .error e => .error e
    | .ok v => if v.truthy then neighbours op (b :: rest) else .ok false
  | _ => .ok true

def chain (name : String) (op : Value → Value → Answer Value) (args : List Value) :
    Answer Value :=
  match args with
  | [] => wrongArity name args
  | [only] => if Number.isNumber only then .ok (.bool true) else expects name "a number" only
  | _ => (neighbours op args).map Value.bool

def sum (args : List Value) : Answer Value :=
  if args.isEmpty then .ok (.int 0) else fold "+" Number.add args

def product (args : List Value) : Answer Value :=
  if args.isEmpty then .ok (.int 1) else fold "*" Number.mul args

/-- Subtraction; a lone argument is negated. -/
def difference (args : List Value) : Answer Value :=
  match args with
  | [only] => Number.negate only
  | _ => fold "-" Number.sub args

/-- Division; a lone argument is inverted. -/
def ratioOf (args : List Value) : Answer Value :=
  match args with
  | [only] => Number.div (.int 1) only
  | _ => fold "/" Number.div args

/-- The argument that a comparison puts before all others; of equals the first. -/
def extreme (name : String) (before : Value → Value → Answer Value) (args : List Value) :
    Answer Value :=
  fold name (fun a b => (before b a).map fun v => if v.truthy then b else a) args

/-- Whether all neighbours are equal. -/
def allSame : List Value → Bool
  | a :: b :: rest => Value.same a b && allSame (b :: rest)
  | _ => true

def equal (name : String) (holds : Bool) (args : List Value) : Answer Value :=
  if args.isEmpty then wrongArity name args else .ok (.bool (allSame args == holds))

def signTest (name : String) (op : Value → Value → Answer Value) (v : Value) : Answer Value :=
  if Number.isNumber v then op v (.int 0) else expects name "a number" v

end TwinLisp.Answer
