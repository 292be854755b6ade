import TwinLisp.Store.Basic
/-!
The bytecode machine between two instructions: a stack of values shared by all active frames, the
frames, and the open cells, which stand for slots of the stack.

* `Activation`: a running function, where it is in its code and where its slots begin.
* `Machine.idle`: the machine before and after every outermost run.
* `Machine.closeFrom`: the cells of the slots from some height on become independent of the stack.
-/

namespace TwinLisp

/-- A running compiled function. Slot zero, at `base`, is the function itself. -/
structure Activation where
  closure : Closure
  ip : Nat
  base : Nat
  /-- Whether it counts as a nested call; a whole form does not. -/
  counted : Bool
  deriving Inhabited

/-- A captured variable that lives in a slot of the stack. -/
structure OpenCell where
  slot : Nat
  cell : Nat
  deriving DecidableEq, Repr, Inhabited

structure Machine where
  stack : Array Value
  /-- The running function stands last. -/
  frames : Array Activation
  /-- Highest slot first. -/
  openCells : List OpenCell
  /-- Instructions begun since the outermost run began. -/
  steps : Nat
  /-- The greatest number of frames since the outermost run began. -/
  peak : Nat
  deriving Inhabited

namespace Machine

def idle : Machine := ⟨#[], #[], [], 0, 0⟩

/-- The open cell of a slot, if there is one. -/
def openCell? (slot : Nat) : List OpenCell → Option Nat
  | [] => none
  | c :: rest =>
    if c.slot = slot then some c.cell else if c.slot < slot then none else openCell? slot rest

/-- Puts a new open cell in its place. -/
def insertOpen (c : OpenCell) : List OpenCell → List OpenCell
  | [] => [c]
  | d :: rest => if d.slot < c.slot then c :: d :: rest else d :: insertOpen c rest

/-- Gives each of some cells the value of its slot for good. -/
def closeCells (stack : Array Value) (store : Store) : List OpenCell → Store
  | [] => store
  | c :: rest =>
    closeCells stack (store.setCell c.cell (.closed ((stack[c.slot]?).getD .nil))) rest

/-- Closes the cells of all slots from `height` on. -/
def closeFrom (height : Nat) (m : Machine) (store : Store) : Machine × Store :=
  match m with
  | ⟨stack, frames, openCells, steps, peak⟩ =>
    let store := closeCells stack store (openCells.takeWhile fun c => height ≤ c.slot)
    (⟨stack, frames, openCells.dropWhile fun c => height ≤ c.slot, steps, peak⟩, store)

/-- The source line of an instruction of a running function. -/
def line (a : Activation) : Nat := a.closure.proto.chunk.lines.getD a.ip 0

end Machine

end TwinLisp
